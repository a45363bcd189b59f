import Formula.Operator
import Formula.Text
import Formula.Value.Text
/-!
# Operators on the texts of their operands

Any value has a text, and these operators see nothing else of their operands: containment searches
one text in another, and the operators on variables take the text for a name.
-/
namespace Formula.Operator

def needle : Parameter := ⟨"needle", "The text to look for", Kind.all⟩

def haystack : Parameter := ⟨"haystack", "The text that is searched", Kind.all⟩

def isPartOf (a b : Value) : Value := .boolean (occursIn a.chars b.chars)

/-- The containment operator whose left operand is searched for. -/
def needleFirst (symbol : String) : Operator :=
  binary ⟨symbol, 2, .left, 6, [needle, haystack]⟩ fun a b => .ok (some (isPartOf a b))

/-- The containment operator whose left operand is searched through. -/
def haystackFirst (symbol : String) : Operator :=
  binary ⟨symbol, 2, .left, 6, [haystack, needle]⟩ fun a b => .ok (some (isPartOf b a))

def variableName : Parameter := ⟨"name", "The variable name", Kind.all⟩

/-- The operator `$`: the value of the variable, absent when there is none. -/
def resolve : Operator :=
  unary ⟨"$", 1, .right, 10, [variableName]⟩ fun lookup a => .ok (lookup a.toText)

/-- The operator `EXISTS`: whether there is such a variable. -/
def existence : Operator :=
  unary ⟨"EXISTS", 1, .left, 7, [variableName]⟩ fun lookup a =>
    .ok (some (.boolean (lookup a.toText).isSome))

end Formula.Operator
