import Formula.Operator.Branching
import Formula.Operator.Numeric
/-!
# Equality operators

Values of one kind are compared as values; a boolean and a number as numbers; other mixed pairs by
their texts. One of the inequalities answers on two sequences whether they are equal.
-/
namespace Formula.Operator

def equal : Relation where
  numeric x y := x == y
  textual s t := s == t
  sequence xs ys := Value.sequence xs == Value.sequence ys
  mapping m n := Value.mapping m == Value.mapping n

def unequal : Relation where
  numeric x y := x != y
  textual s t := s != t
  sequence xs ys := Value.sequence xs != Value.sequence ys
  mapping m n := Value.mapping m != Value.mapping n

theorem unequal_eq_complement : unequal = equal.complement := rfl

/-- Inequality by kind, but for two sequences equality. -/
def unequalButSequences : Relation := { unequal with sequence := equal.sequence }

def equalitySignature (symbol : String) : Signature :=
  ⟨symbol, 2, .left, comparisonPrecedence, Parameter.pair Kind.all⟩

def equality (symbol : String) : Operator := relation (equalitySignature symbol) equal

def inequality (symbol : String) : Operator := relation (equalitySignature symbol) unequal

/-- The operator that answers whether its operands are unequal, and of two sequences whether they
are equal. -/
def inequalityKeyword (symbol : String) : Operator :=
  relation (equalitySignature symbol) unequalButSequences

end Formula.Operator
