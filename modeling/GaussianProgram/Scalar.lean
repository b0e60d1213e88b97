/-! Numbers of the library. Every definition is written once over `Scalar`; binary64 numbers run it,
and an ordered field with a square root reads the same definitions exactly. -/
namespace GaussianProgram

/-- Arithmetic, comparison and decimal literals, with the four functions that ordered fields lack.
Nothing is assumed of them here: a law is a hypothesis of the theorem that needs it. -/
class Scalar (α : Type) extends Zero α, One α, Add α, Sub α, Neg α, Mul α, Div α,
    LT α, LE α, BEq α, OfScientific α where
  decidableLT : DecidableLT α
  decidableLE : DecidableLE α
  /-- Magnitude, without sign. -/
  abs : α → α
  /-- The larger of two numbers; of a number and a value that is none, the number. -/
  max : α → α → α
  sqrt : α → α
  isFinite : α → Bool

attribute [reducible, instance] Scalar.decidableLT Scalar.decidableLE

/-- Binary64 arithmetic. The larger of two values passes over a NaN on either side. -/
instance : Scalar Float where
  zero := 0.0
  one := 1.0
  decidableLT := Float.decLt
  decidableLE := Float.decLe
  abs := Float.abs
  max a b := if a < b then b else if a == a then a else b
  sqrt := Float.sqrt
  isFinite := Float.isFinite

/-- The number of the unit interval nearest to `x`. What compares with neither end is kept. -/
def Scalar.clampUnit {α : Type} [Scalar α] (x : α) : α :=
  if x < 0 then 0 else if 1 < x then 1 else x

end GaussianProgram
