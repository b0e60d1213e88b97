/-! Keys that name the unknowns of a problem: any type with a total order and a printed text. -/
namespace GaussianProgram

/-- A totally ordered type of names. Only the order matters for computing, only the text
for messages. -/
class Key (κ : Type) extends Ord κ where
  transOrd : Std.TransOrd κ
  lawfulEqOrd : Std.LawfulEqOrd κ
  text : κ → String

attribute [instance] Key.transOrd Key.lawfulEqOrd

/-- Keys are equal when neither comes first. -/
instance (priority := low) Key.decidableEq {κ : Type} [Key κ] : DecidableEq κ := fun a b =>
  decidable_of_iff (compare a b = .eq) Std.LawfulEqCmp.compare_eq_iff_eq

/-- Texts, in the order of their code points. -/
instance : Key String where
  transOrd := inferInstance
  lawfulEqOrd := inferInstance
  text := id

/-- Positions, in the order of numbers. -/
instance : Key Nat where
  transOrd := inferInstance
  lawfulEqOrd := inferInstance
  text := toString

/-- Name made of a letter and a number, such as `x1`. -/
def symbol (letter : Char) (index : Nat) : String :=
  letter.toString ++ toString index

end GaussianProgram
