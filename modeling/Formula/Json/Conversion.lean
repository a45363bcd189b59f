import Formula.Fault
import Formula.Json
import Formula.Number.Nearest
import Formula.Value.Mapping
import Formula.Value.Text
/-!
# Values as JSON and JSON as values

Null has no value. In the other direction every value has JSON: numbers that are not finite become
their texts, and so do the keys of mappings, of which several may then share a name; the last of them
counts.
-/
namespace Formula

mutual

def Json.toValue : Json → Except Fault Value
  | .null => .error .nullValue
  | .boolean b => .ok (.boolean b)
  | .integer n => .ok (.number (Number.ofInt n))
  | .real x => .ok (.number x)
  | .string s => .ok (.text s)
  | .array items => do
    let vs ← itemsToValues items
    return .sequence vs
  | .object fields => do
    let es ← fieldsToEntries fields
    return .mapping (Mapping.ofList es)

/-- The values of items, up to the first that has none. -/
def Json.itemsToValues : List Json → Except Fault (List Value)
  | [] => .ok []
  | j :: js => do
    let v ← toValue j
    let vs ← itemsToValues js
    return v :: vs

/-- The entries of fields, keyed by text, up to the first that has no value. -/
def Json.fieldsToEntries : List (String × Json) → Except Fault (List (Value × Value))
  | [] => .ok []
  | (name, j) :: fs => do
    let v ← toValue j
    let es ← fieldsToEntries fs
    return (.text name, v) :: es

end

mutual

def Json.ofValue : Value → Json
  | .number x =>
    if Number.isFinite x then .real x else .string (Value.number x).toText
  | .boolean b => .boolean b
  | .text s => .string s
  | .sequence vs => .array (itemsOfValues vs)
  | .mapping es => .object (Fields.ofList (fieldsOfEntries es))

def Json.itemsOfValues : List Value → List Json
  | [] => []
  | v :: vs => ofValue v :: itemsOfValues vs

/-- The JSON of entries, each under the text of its key. -/
def Json.fieldsOfEntries : List (Value × Value) → List (String × Json)
  | [] => []
  | (k, v) :: es => (k.toText, ofValue v) :: fieldsOfEntries es

end

end Formula
