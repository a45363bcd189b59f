import Formula.Json
import Formula.Number.Layout
/-!
# Writing JSON

Two styles: compact, without any blanks, and pretty, with each item or field on a line of its own,
indented by two spaces a level. Empty arrays and objects are written alike in both.
-/
namespace Formula.Json

/-- Plain from `1e-5` up to below `1e16`, else as in `1e+16` and `1.5e-7`; of two nearest shortest
decimals the even one. -/
def numberLayout : Number.Layout where
  least := 1e-5
  limit := 1e16
  tie := .toEven
  mark := 'e'
  plus := true
  point := false

/-- A character in a string: quotes, backslashes and control characters are escaped. -/
def escapedChar (c : Char) : List Char :=
  match c with
  | '"' => ['\\', '"']
  | '\\' => ['\\', '\\']
  | '\x08' => ['\\', 'b']
  | '\t' => ['\\', 't']
  | '\n' => ['\\', 'n']
  | '\x0c' => ['\\', 'f']
  | '\r' => ['\\', 'r']
  | c =>
    if c < ' ' then
      ['\\', 'u', '0', '0', Nat.digitChar (c.toNat / 16), Nat.digitChar (c.toNat % 16)]
    else [c]

def quotedString (s : String) : List Char := '"' :: s.toList.flatMap escapedChar ++ ['"']

/-- Where blanks go. -/
structure Style where
  /-- What stands before an item or a closing bracket, given the level it stands at. -/
  lineBreak : Nat → List Char
  /-- What stands between a name and its value. -/
  colon : List Char

def compactStyle : Style := ⟨fun _ => [], [':']⟩

def prettyStyle : Style := ⟨fun level => '\n' :: List.replicate (2 * level) ' ', [':', ' ']⟩

/-- Parts between brackets, at the level of the brackets. -/
def Style.enclose (style : Style) (level : Nat) (left right : Char) (parts : List (List Char)) :
    List Char :=
  match parts with
  | [] => [left, right]
  | parts =>
    left :: style.lineBreak (level + 1) ++
      List.intercalate (',' :: style.lineBreak (level + 1)) parts ++
      style.lineBreak level ++ [right]

mutual

/-- The text of a document that begins at a level. -/
def write (style : Style) (level : Nat) : Json → List Char
  | .null => "null".toList
  | .boolean b => (if b then "true" else "false").toList
  | .integer n => n.repr.toList
  | .real x => numberLayout.write x
  | .string s => quotedString s
  | .array items => style.enclose level '[' ']' (writeItems style (level + 1) items)
  | .object fields => style.enclose level '{' '}' (writeFields style (level + 1) fields)

def writeItems (style : Style) (level : Nat) : List Json → List (List Char)
  | [] => []
  | j :: js => write style level j :: writeItems style level js

def writeFields (style : Style) (level : Nat) : List (String × Json) → List (List Char)
  | [] => []
  | (name, j) :: fs =>
    (quotedString name ++ style.colon ++ write style level j) :: writeFields style level fs

end

def compact (j : Json) : String := String.ofList (write compactStyle 0 j)

def pretty (j : Json) : String := String.ofList (write prettyStyle 0 j)

end Formula.Json
