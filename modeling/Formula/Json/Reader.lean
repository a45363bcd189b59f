import Formula.Json.Token
/-!
# Reading JSON

Tokens are read one by one, with a stack of the arrays and objects that are open and what is known of
them. At most `depthLimit` may be open at once. Of several fields with one name the last counts.
-/
namespace Formula.Json

/-- How many arrays and objects may be open at once. -/
def depthLimit : Nat := 127

/-- An array or an object that is open, its parts last first. -/
inductive Frame where
  | array (items : List Json)
  /-- An object, and the name of the field that is being read, if one is. -/
  | object (fields : List (String × Json)) (name : Option String)

/-- What may come next. -/
inductive Expectation where
  | value
  /-- A first item, or the end of the array. -/
  | itemOrEnd
  | name
  /-- The name of a first field, or the end of the object. -/
  | nameOrEnd
  | colon
  | commaOrEnd

inductive State where
  | reading (next : Expectation) (opened : List Frame)
  | finished (j : Json)

/-- The state after a value, which goes to the innermost open array or object. -/
def deliver (j : Json) : List Frame → Option State
  | [] => some (.finished j)
  | .array items :: opened => some (.reading .commaOrEnd (.array (j :: items) :: opened))
  | .object fields (some name) :: opened =>
    some (.reading .commaOrEnd (.object ((name, j) :: fields) none :: opened))
  | .object _ none :: _ => none

/-- The state after one more array or object is opened. -/
def descend (next : Expectation) (frame : Frame) (opened : List Frame) : Option State :=
  if opened.length < depthLimit then some (.reading next (frame :: opened)) else none

def startValue (opened : List Frame) : Token → Option State
  | .scalar j => deliver j opened
  | .string s => deliver (.string s) opened
  | .arrayOpen => descend .itemOrEnd (.array []) opened
  | .objectOpen => descend .nameOrEnd (.object [] none) opened
  | _ => none

def step : State → Token → Option State
  | .reading .value opened, t => startValue opened t
  | .reading .itemOrEnd (.array [] :: opened), .arrayClose => deliver (.array []) opened
  | .reading .itemOrEnd opened, t => startValue opened t
  | .reading .nameOrEnd (.object [] none :: opened), .objectClose => deliver (.object []) opened
  | .reading .nameOrEnd (.object fields none :: opened), .string s
  | .reading .name (.object fields none :: opened), .string s =>
    some (.reading .colon (.object fields (some s) :: opened))
  | .reading .colon opened, .colon => some (.reading .value opened)
  | .reading .commaOrEnd (.array items :: opened), .comma =>
    some (.reading .value (.array items :: opened))
  | .reading .commaOrEnd (.array items :: opened), .arrayClose =>
    deliver (.array items.reverse) opened
  | .reading .commaOrEnd (.object fields none :: opened), .comma =>
    some (.reading .name (.object fields none :: opened))
  | .reading .commaOrEnd (.object fields none :: opened), .objectClose =>
    deliver (.object (Fields.ofList fields.reverse)) opened
  | _, _ => none

def ofTokens? (ts : List Token) : Option Json :=
  match ts.foldlM step (.reading .value []) with
  | some (.finished j) => some j
  | _ => none

def read? (s : String) : Option Json := (tokens? s.toList).bind ofTokens?

end Formula.Json
