/-! The exact value of a binary64 number, read off its bits. -/
namespace GaussianProgram.Decimal

/-- What a binary64 number stands for. -/
inductive BinaryValue where
  | notANumber
  | infinite (negative : Bool)
  | finite (negative : Bool) (num den : Nat)

/-- Sign, exponent and fraction of a binary64 number. An exponent of all zeros has no leading bit,
one of all ones stands for the values that are no numbers. -/
def BinaryValue.ofBits (bits : Nat) : BinaryValue :=
  let negative := bits / Nat.pow 2 63 % 2 = 1
  let exponent := bits / Nat.pow 2 52 % Nat.pow 2 11
  let fraction := bits % Nat.pow 2 52
  if exponent = Nat.pow 2 11 - 1 then
    if fraction = 0 then .infinite negative else .notANumber
  else if exponent = 0 then .finite negative fraction (Nat.pow 2 1074)
  else if 1075 ≤ exponent then
    .finite negative ((Nat.pow 2 52 + fraction) * Nat.pow 2 (exponent - 1075)) 1
  else .finite negative (Nat.pow 2 52 + fraction) (Nat.pow 2 (1075 - exponent))

def BinaryValue.ofFloat (x : Float) : BinaryValue := .ofBits x.toBits.toNat

end GaussianProgram.Decimal
