/-! Sums of dimensions, and the places at which the parts of a stacked vector begin.
Stacks of factors are measured in 64-bit words, so their sums wrap around. Vectors end
where the addresses do. -/
namespace GaussianProgram

def sumDims : List Nat → Nat
  | [] => 0
  | d :: ds => d + sumDims ds

@[simp] theorem sumDims_nil : sumDims [] = 0 := rfl

@[simp] theorem sumDims_cons (d : Nat) (ds : List Nat) : sumDims (d :: ds) = d + sumDims ds := rfl

@[simp] theorem sumDims_append (ds es : List Nat) :
    sumDims (ds ++ es) = sumDims ds + sumDims es := by
  induction ds with
  | nil => simp
  | cons d ds ih => simp [ih, Nat.add_assoc]

def wordSum (dims : List Nat) : Nat := sumDims dims % UInt64.size

/-- Length of the longest vector that can be stored: its entries of eight bytes each fill less than
half of the addresses that a 64-bit word can tell apart. -/
def maxLength : Nat := (UInt64.size / 2 - 1) / 8

/-- Start of every dimension in the stack that begins at `start`, in 64-bit words. -/
def runningOffsets (start : Nat) : List Nat → List Nat
  | [] => []
  | d :: ds => start :: runningOffsets ((start + d) % UInt64.size) ds

@[simp] theorem length_runningOffsets (start : Nat) (dims : List Nat) :
    (runningOffsets start dims).length = dims.length := by
  induction dims generalizing start with
  | nil => rfl
  | cons d ds ih => simp [runningOffsets, ih]

end GaussianProgram
