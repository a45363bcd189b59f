import Formula.Number.Integral
import Formula.Operator
import Formula.Operator.Coercion
/-!
# Operators on numbers

Their operands are numbers, booleans or texts that spell a number; of two unfit operands the left one
is reported. Multiplication, division and powers are those of doubles, the remainder has the sign of
the dividend, and the orderings are false as soon as an operand is undefined.
-/
namespace Formula.Operator

def numeric (s : Signature) (f : Float → Float → Value) : Operator :=
  binary s fun a b => do
    let x ← a.asNumber s.symbol
    let y ← b.asNumber s.symbol
    return some (f x y)

def multiplicativeSignature (symbol : String) : Signature :=
  ⟨symbol, 2, .left, 7, Parameter.pair Kind.numeric⟩

def multiplication : Operator :=
  numeric (multiplicativeSignature "*") fun x y => .number (x * y)

def division : Operator := numeric (multiplicativeSignature "/") fun x y => .number (x / y)

def modulo : Operator :=
  numeric (multiplicativeSignature "%") fun x y => .number (Number.remainder x y)

def powerSignature : Signature where
  symbol := "^"
  arity := 2
  associativity := .right
  precedence := 8
  parameters := [⟨"base", "The base", Kind.numeric⟩, ⟨"exponent", "The exponent", Kind.numeric⟩]

def power : Operator := numeric powerSignature fun x y => .number (x.pow y)

def negationSignature : Signature :=
  ⟨"-", 1, .right, 11, [⟨"x", "The value to negate", Kind.numeric⟩]⟩

def negation : Operator :=
  unary negationSignature fun _ a => do
    let x ← a.asNumber negationSignature.symbol
    return some (.number (-x))

def comparisonPrecedence : Int := 5

/-- The operator that compares two numbers, whatever the comparison answers. -/
def ordering (symbol : String) (f : Float → Float → Value) : Operator :=
  numeric ⟨symbol, 2, .left, comparisonPrecedence, Parameter.pair Kind.numeric⟩ f

end Formula.Operator
