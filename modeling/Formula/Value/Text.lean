import Formula.Number.Layout
import Formula.Value
/-!
# The natural text of a value

A text is its own text. Numbers have at least one digit on either side of the point, and an exponent
below `0.001` and from `10000000.0` on. Collections list the texts of their parts.
-/
namespace Formula

/-- Digits with a point, unless the number is very small or very large; of two nearest shortest
decimals the greater. -/
def pointLayout : Number.Layout where
  least := 1e-4
  limit := 1e16
  tie := .upward
  mark := 'e'
  plus := false
  point := false

/-- An exponent for every number, and a point if there is more than one digit. -/
def exponentLayout : Number.Layout := { pointLayout with least := 0, limit := 0 }

/-- The spelling with a point and a capital before the exponent: `1.0E7` for `1e7`. -/
def respell (cs : List Char) : List Char :=
  let mantissa := cs.takeWhile (· ≠ 'e')
  let exponent :=
    match cs.dropWhile (· ≠ 'e') with
    | [] => ['0']
    | _ :: ds => ds
  if mantissa.contains '.' then mantissa ++ 'E' :: exponent
  else mantissa ++ '.' :: '0' :: 'E' :: exponent

def numberChars (x : Float) : List Char :=
  if Number.isUndefined x then "NaN".toList
  else if Number.isInfinite x then (if x > 0 then "Infinity" else "-Infinity").toList
  else if x == 0 || 1e-3 ≤ x.abs && x.abs < 1e7 then pointLayout.write x
  else respell (exponentLayout.write x)

mutual

def Value.chars : Value → List Char
  | .number x => numberChars x
  | .boolean b => (if b then "true" else "false").toList
  | .text s => s.toList
  | .sequence xs => '[' :: List.intercalate [',', ' '] (itemChars xs) ++ [']']
  | .mapping es => '{' :: List.intercalate [',', ' '] (entryChars es) ++ ['}']

/-- The texts of items, one by one. -/
def Value.itemChars : List Value → List (List Char)
  | [] => []
  | v :: vs => chars v :: itemChars vs

/-- The texts `key=value` of entries, one by one. -/
def Value.entryChars : List (Value × Value) → List (List Char)
  | [] => []
  | (k, v) :: es => (chars k ++ '=' :: chars v) :: entryChars es

end

def Value.toText (v : Value) : String := String.ofList v.chars

theorem Value.itemChars_eq_map (vs : List Value) : itemChars vs = vs.map chars := by
  induction vs with
  | nil => rfl
  | cons v vs ih => simp [itemChars, ih]

theorem Value.entryChars_eq_map (es : List (Value × Value)) :
    entryChars es = es.map fun e => chars e.1 ++ '=' :: chars e.2 := by
  induction es with
  | nil => rfl
  | cons e es ih => simp [entryChars, ih]

@[simp]
theorem Value.toText_text (s : String) : (Value.text s).toText = s := by
  simp [toText, chars]

theorem Value.toList_toText_number (x : Float) :
    (Value.number x).toText.toList = numberChars x := by
  rw [toText, String.toList_ofList, chars]

end Formula
