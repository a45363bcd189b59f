import Formula.Operator.Branching
/-!
# Sum and difference

`+` adds numbers, joins texts, appends to sequences and merges mappings; `-` subtracts numbers and
removes from collections. The difference of two texts is `false`.
-/
namespace Formula.Operator

/-- Appends the items of a sequence, or any other value as one item. -/
def appendValue (items : List Value) : Value → List Value
  | .sequence more => items ++ more
  | v => items ++ [v]

/-- The items not equal to what is removed: to an item of a sequence, or to any other value. -/
def removeItems (items : List Value) : Value → List Value
  | .sequence removed => items.filter fun v => !removed.any (· == v)
  | v => items.filter (· != v)

/-- Removes the keys in a sequence, or any other value as one key. -/
def removeKeys (m : Mapping) : Value → Mapping
  | .sequence keys => Mapping.eraseAll m keys
  | k => Mapping.erase m k

/-- The meanings of `+`. Only a mapping can be merged into a mapping, and the fault names `+`. -/
def sum : Arithmetic where
  numeric x y := .ok (.number (x + y))
  textual s t := .ok (.text (s ++ t))
  sequence xs b := .ok (.sequence (appendValue xs b))
  mapping
    | m, .mapping n => .ok (.mapping (Mapping.merge m n))
    | _, b => .error (.unsupported "+" b.kind)

def difference : Arithmetic where
  numeric x y := .ok (.number (x - y))
  textual _ _ := .ok (.boolean false)
  sequence xs b := .ok (.sequence (removeItems xs b))
  mapping m b := .ok (.mapping (removeKeys m b))

/-- Sums and differences bind alike. -/
def additivePrecedence : Int := 6

def additiveSignature (symbol : String) : Signature :=
  ⟨symbol, 2, .left, additivePrecedence, Parameter.pair Kind.all⟩

def addition : Operator := arithmetic (additiveSignature "+") sum

def subtraction : Operator := arithmetic (additiveSignature "-") difference

end Formula.Operator
