import GaussianProgram.Dimension
import GaussianProgram.Scalar

/-! Vectors as lists of scalars. The order in which terms are added is part of every sum, so that a
sum over scalars that round is determined as well. -/
namespace GaussianProgram

abbrev Vec (α : Type) := List α

namespace Vec
variable {α : Type} [Scalar α]

def zeros (n : Nat) : Vec α := List.replicate n 0

def zeros? (n : Nat) : Option (Vec α) := if n ≤ maxLength then some (zeros n) else none

/-- Entry `i`, zero beyond the end. -/
def get (v : Vec α) (i : Nat) : α := v.getD i 0

def add (u v : Vec α) : Vec α := List.zipWith (· + ·) u v

def sub (u v : Vec α) : Vec α := List.zipWith (· - ·) u v

def neg (v : Vec α) : Vec α := v.map (-·)

def scale (v : Vec α) (c : α) : Vec α := v.map (· * c)

def sum (v : Vec α) : α := v.foldl (· + ·) 0

/-- Sum of the entries at place `lane` of every full block of eight. -/
def laneSum (v : Vec α) (lane : Nat) : α :=
  sum ((List.range (v.length / 8)).map fun block => get v (8 * block + lane))

/-- Sum in eight lanes: every lane of the full blocks by itself, then lanes four apart in pairs, and
last the entries after the full blocks. Up to seven entries are added from left to right. -/
def blockSum (v : Vec α) : α :=
  sum ((List.range 4).map (fun lane => laneSum v lane + laneSum v (lane + 4)) ++
    v.drop (8 * (v.length / 8)))

/-- Dot product from left to right, as a row takes it with a vector. -/
def dot (u v : Vec α) : α := sum (List.zipWith (· * ·) u v)

/-- Dot product from left to right that starts with its first product, as a matrix takes it with a
vector. Unlike a sum that starts with zero it is a negative zero where all products are. -/
def combine (u v : Vec α) : α :=
  match List.zipWith (· * ·) u v with
  | [] => 0
  | x :: xs => xs.foldl (· + ·) x

/-- Dot product of two stacked vectors, summed by blocks. -/
def inner (u v : Vec α) : α := blockSum (List.zipWith (· * ·) u v)

def normSq (v : Vec α) : α := inner v v

def norm (v : Vec α) : α := Scalar.sqrt (normSq v)

/-- Largest magnitude of an entry, zero for an empty vector. A magnitude that does not compare
with the next one gives way to it. -/
def amax (v : Vec α) : α :=
  match v with
  | [] => 0
  | x :: xs =>
    xs.foldl (fun m y => if Scalar.abs y ≤ m then m else Scalar.abs y) (Scalar.abs x)

def isFinite (v : Vec α) : Bool := v.all Scalar.isFinite

/-- The `n` entries from `offset` on, if there are as many. -/
def slice (v : Vec α) (offset n : Nat) : Option (Vec α) :=
  if offset + n ≤ v.length then some ((v.drop offset).take n) else none

/-- `v` with `w` in the place of its entries from `offset` on, if `w` fits. -/
def overwrite (v : Vec α) (offset : Nat) (w : Vec α) : Option (Vec α) :=
  if offset + w.length ≤ v.length then
    some (v.take offset ++ w ++ v.drop (offset + w.length))
  else none

/-- `v` with `w` added to its entries from `offset` on, if `w` fits. -/
def addAt (v : Vec α) (offset : Nat) (w : Vec α) : Option (Vec α) :=
  (v.slice offset w.length).bind fun part => v.overwrite offset (add part w)

@[simp] theorem length_zeros (n : Nat) : (zeros n : Vec α).length = n := by simp [zeros]

theorem zeros?_eq_some {n : Nat} {v : Vec α} :
    zeros? n = some v ↔ n ≤ maxLength ∧ v = zeros n := by
  grind [zeros?]

@[simp] theorem length_add (u v : Vec α) : (add u v).length = min u.length v.length := by
  simp [add]

@[simp] theorem length_sub (u v : Vec α) : (sub u v).length = min u.length v.length := by
  simp [sub]

@[simp] theorem length_neg (v : Vec α) : (neg v).length = v.length := by simp [neg]

@[simp] theorem length_scale (v : Vec α) (c : α) : (scale v c).length = v.length := by simp [scale]

section
variable {α : Type}

theorem length_of_slice {v w : Vec α} {offset n : Nat} (h : v.slice offset n = some w) :
    w.length = n := by
  grind [slice]

theorem length_of_overwrite {v w u : Vec α} {offset : Nat} (h : v.overwrite offset w = some u) :
    u.length = v.length := by
  grind [overwrite]

/-- A part that lies inside can be cut out. -/
theorem slice_isSome {v : Vec α} {offset n : Nat} :
    (v.slice offset n).isSome = true ↔ offset + n ≤ v.length := by
  grind [slice]

end

end Vec

end GaussianProgram
