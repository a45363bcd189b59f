import Formula.Json.Conversion
import Formula.Json.Reader
import Formula.Text
/-!
# Values and assignments in texts

A text that is JSON means its value, and any other text means itself. An assignment has its name
before the first equals sign, between blanks, and its value after it.
-/
namespace Formula

def Value.read (s : String) : Except Fault Value :=
  match Json.read? s with
  | some j => j.toValue
  | none => .ok (.text s)

structure Assignment where
  name : String
  value : Value

def Assignment.read (s : String) : Except Fault Assignment :=
  match s.toList.dropWhile (· ≠ '=') with
  | [] => .error (.notAssignment s)
  | _ :: after =>
    match trim (s.toList.takeWhile (· ≠ '=')) with
    | [] => .error .blankName
    | name => do
      let value ← match Json.read? (String.ofList after) with
        | some j => j.toValue
        | none => .ok (.text (String.ofList after))
      return ⟨String.ofList name, value⟩

end Formula
