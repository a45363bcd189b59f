import Formula.Value
/-!
# Faults

Why there is no result. An absent variable or mapping key is not a fault.
-/
namespace Formula

inductive Fault where
  /-- The operator has no meaning for operands of this kind. -/
  | unsupported (operator : String) (kind : Kind)
  /-- A text that stands for a number does not spell one. -/
  | unreadableNumber (operator text : String)
  /-- A truth value is needed, and nothing is converted to one. -/
  | notBoolean (operator : String) (kind : Kind)
  | outOfBounds (index : Int) (length : Nat)
  | keyNotFound (key : String)
  /-- Fewer operands are left than the operator takes. -/
  | missingOperand (operator : String) (expected : Nat)
  | unknownOperator (symbol : String) (arity : Nat)
  /-- JSON null was to become a value. -/
  | nullValue
  /-- An assignment without an equals sign. -/
  | notAssignment (text : String)
  /-- An assignment to a name that is blank. -/
  | blankName
  deriving DecidableEq, Repr

/-- A name as messages show it. -/
def quoted (name : String) : String := "`" ++ name ++ "`"

def Fault.message : Fault → String
  | .unsupported op kind =>
    "operator " ++ quoted op ++ " does not support operand of kind " ++ kind.name
  | .unreadableNumber op text =>
    "operator " ++ quoted op ++ ": cannot parse " ++ quoted text ++ " as a number"
  | .notBoolean op kind => "operator " ++ quoted op ++ ": expected Boolean, got " ++ kind.name
  | .outOfBounds index length =>
    "index " ++ index.repr ++ " is out of bounds for length " ++ length.repr
  | .keyNotFound key => "key " ++ quoted key ++ " not found"
  | .missingOperand op expected =>
    "operator " ++ quoted op ++ " expects " ++ expected.repr ++ " operand(s)"
  | .unknownOperator symbol arity =>
    "unknown operator " ++ quoted symbol ++ " with arity " ++ arity.repr
  | .nullValue => "conversion error: null has no counterpart in the value domain"
  | .notAssignment text => "conversion error: expected name=value, got " ++ quoted text
  | .blankName => "conversion error: variable name is empty"

end Formula
