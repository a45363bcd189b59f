import Formula.Fault
import Formula.Number.Numeral
import Formula.Text
/-!
# Operands as numbers and truth values

Three readings of an operand, from lax to strict: `promoted?` takes numbers and booleans for numbers
and fails silently, `asNumber` reads texts too and says what is wrong, and `asBoolean` converts
nothing.
-/
namespace Formula

def numberOfBool (b : Bool) : Float := if b then 1 else 0

/-- The number that a number or a boolean is. -/
def Value.promoted? : Value → Option Float
  | .number x => some x
  | .boolean b => some (numberOfBool b)
  | _ => none

/-- The number that a text spells between blanks, as a decimal literal. -/
def numberOfText? (s : String) : Option Float :=
  (Number.Numeral.read? (trim s.toList)).map Number.Numeral.toNumber

/-- The number that an operand of `operator` stands for. -/
def Value.asNumber (operator : String) : Value → Except Fault Float
  | .number x => .ok x
  | .boolean b => .ok (numberOfBool b)
  | .text s =>
    match numberOfText? s with
    | some x => .ok x
    | none => .error (.unreadableNumber operator s)
  | v => .error (.unsupported operator v.kind)

/-- The truth value that an operand of `operator` is. -/
def Value.asBoolean (operator : String) : Value → Except Fault Bool
  | .boolean b => .ok b
  | .number _ => .error (.notBoolean operator .number)
  | .text _ => .error (.notBoolean operator .text)
  | v => .error (.unsupported operator v.kind)

end Formula
