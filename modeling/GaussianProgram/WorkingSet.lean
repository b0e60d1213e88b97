import GaussianProgram.Sorted.Lookup
import GaussianProgram.Sorted.Set
import GaussianProgram.Sorted.Pair

/-! Rows of constraint factors, and the working set: the inequality rows that are held with equality
for the moment. A working set is an ordered set, so equal sets have equal values. -/
namespace GaussianProgram

/-- A row of a constraint factor, by the factor's index in the graph and the row's index in it. -/
structure ConstraintRow where
  factor : Nat
  row : Nat
  deriving DecidableEq, Repr

namespace ConstraintRow

def pair (r : ConstraintRow) : Nat × Nat := (r.factor, r.row)

/-- Rows are ordered by factor and within a factor by row. -/
instance : Ord ConstraintRow := ⟨fun a b => compare a.pair b.pair⟩

theorem compare_eq (a b : ConstraintRow) : compare a b = compare a.pair b.pair := rfl

instance : Std.TransOrd ConstraintRow where
  eq_swap {a b} := @Std.OrientedCmp.eq_swap _ compare _ a.pair b.pair
  isLE_trans {a b c} := @Std.TransCmp.isLE_trans _ compare _ a.pair b.pair c.pair

instance : Std.LawfulEqOrd ConstraintRow where
  compare_self {a} := @Std.ReflCmp.compare_self _ compare _ a.pair
  eq_of_compare {a b} h := by
    have := @Std.LawfulEqCmp.eq_of_compare _ compare _ a.pair b.pair h
    cases a; cases b; simp_all [pair]

def text (r : ConstraintRow) : String := s!"({r.factor}, {r.row})"

end ConstraintRow

/-- A finite set of rows in ascending order. -/
structure WorkingSet where
  members : SortedSet ConstraintRow
  deriving DecidableEq

namespace WorkingSet

instance : Inhabited WorkingSet := ⟨⟨SortedMap.empty⟩⟩

def empty : WorkingSet := ⟨SortedMap.empty⟩

def rows (w : WorkingSet) : List ConstraintRow := w.members.keys

def ofRows (rows : List ConstraintRow) : WorkingSet := ⟨SortedSet.ofKeys rows⟩

def contains (w : WorkingSet) (r : ConstraintRow) : Bool := w.members.contains r

/-- The set with `r` in it, and whether `r` is new. -/
def insert (w : WorkingSet) (r : ConstraintRow) : Bool × WorkingSet :=
  (!w.contains r, ⟨w.members.add r⟩)

def remove (w : WorkingSet) (r : ConstraintRow) : Bool × WorkingSet :=
  (w.contains r, ⟨w.members.erase r⟩)

def size (w : WorkingSet) : Nat := w.members.size

def isEmpty (w : WorkingSet) : Bool := w.rows.isEmpty

def rowsOf (w : WorkingSet) (factor : Nat) : List Nat :=
  (w.rows.filter (·.factor == factor)).map (·.row)

def factors (w : WorkingSet) : SortedSet Nat := SortedSet.ofKeys (w.rows.map (·.factor))

theorem nodup_rows (w : WorkingSet) : w.rows.Nodup := w.members.nodup_keys

theorem contains_iff {w : WorkingSet} {r : ConstraintRow} :
    w.contains r = true ↔ r ∈ w.rows := SortedMap.contains_iff

theorem mem_rows_insert {w : WorkingSet} {a r : ConstraintRow} :
    a ∈ (w.insert r).2.rows ↔ a = r ∨ a ∈ w.rows := SortedMap.mem_keys_insert

theorem mem_rows_remove {w : WorkingSet} {a r : ConstraintRow} :
    a ∈ (w.remove r).2.rows ↔ a ≠ r ∧ a ∈ w.rows := SortedMap.mem_keys_erase

theorem mem_rowsOf {w : WorkingSet} {factor row : Nat} :
    row ∈ w.rowsOf factor ↔ ⟨factor, row⟩ ∈ w.rows := by
  simp only [rowsOf, List.mem_map, List.mem_filter, beq_iff_eq]
  exact ⟨fun ⟨r, ⟨hr, hf⟩, he⟩ => hf ▸ he ▸ hr, fun h => ⟨_, ⟨h, rfl⟩, rfl⟩⟩

/-- Sets are compared as the lists of their rows, from the first row on. -/
instance : Ord WorkingSet := ⟨fun a b => compare a.rows b.rows⟩

def text (w : WorkingSet) : String :=
  "\x7b" ++ ", ".intercalate (w.rows.map ConstraintRow.text) ++ "\x7d"

end WorkingSet

end GaussianProgram
