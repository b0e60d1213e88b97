/-! Decimal digits of exact fractions. A fraction is rounded once, from its exact value, to the
nearest digit; a half goes to the even digit. -/
namespace GaussianProgram.Decimal

/-- The whole number nearest to `num / den`, the even one of two. -/
def roundHalfEven (num den : Nat) : Nat :=
  let q := num / den
  let r := num % den
  if 2 * r < den then q
  else if den < 2 * r then q + 1
  else if q % 2 = 0 then q else q + 1

/-- Rounding is off by half a unit at most. -/
theorem roundHalfEven_near (num den : Nat) (h : 0 < den) :
    2 * (roundHalfEven num den * den) ≤ 2 * num + den ∧
      2 * num ≤ 2 * (roundHalfEven num den * den) + den := by
  have hq := Nat.div_add_mod num den
  have hr := Nat.mod_lt num h
  have hs : (num / den + 1) * den = den * (num / den) + den := by
    rw [Nat.add_mul, Nat.one_mul, Nat.mul_comm]
  have hc : num / den * den = den * (num / den) := Nat.mul_comm _ _
  grind [roundHalfEven]

def digitCount (n : Nat) : Nat := (Nat.toDigits 10 n).length

/-- The exponent of the first digit of a positive fraction: the largest `k` such that `10 ^ k` is at
most `num / den`. -/
def leadingExponent (num den : Nat) : Int :=
  if den ≤ num then (digitCount (num / den) : Int) - 1
  else -(digitCount ((den - 1) / num) : Int)

def shift (num den : Nat) (k : Int) : Nat × Nat :=
  if 0 ≤ k then (num * Nat.pow 10 k.toNat, den) else (num, den * Nat.pow 10 (-k).toNat)

/-- The fraction in units of `10 ^ (-places)`, rounded. -/
def roundPlaces (num den : Nat) (places : Int) : Nat :=
  let (n, d) := shift num den places
  roundHalfEven n d

/-- The first `digits` significant digits of a fraction as one number, with the exponent of the
first of them. Zero has the exponent zero. -/
def roundSignificant (num den digits : Nat) : Nat × Int :=
  if num = 0 then (0, 0) else
    let k := leadingExponent num den
    let n := roundPlaces num den (digits - 1 - k)
    if n = Nat.pow 10 digits then (Nat.pow 10 (digits - 1), k + 1) else (n, k)

end GaussianProgram.Decimal
