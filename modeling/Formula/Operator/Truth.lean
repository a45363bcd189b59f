import Formula.Operator
import Formula.Operator.Coercion
/-!
# Operators on truth values

Their operands must be booleans. Both operands of a connective are looked at, whatever the left one
is, and of two unfit ones the left is reported.
-/
namespace Formula.Operator

def logicalNot (symbol : String) : Operator :=
  unary ⟨symbol, 1, .right, 3, [⟨"x", "The value to negate", [.boolean]⟩]⟩ fun _ a => do
    let x ← a.asBoolean symbol
    return some (.boolean !x)

def connective (symbol : String) (precedence : Int) (f : Bool → Bool → Bool) : Operator :=
  binary ⟨symbol, 2, .left, precedence, Parameter.pair [.boolean]⟩ fun a b => do
    let x ← a.asBoolean symbol
    let y ← b.asBoolean symbol
    return some (.boolean (f x y))

end Formula.Operator
