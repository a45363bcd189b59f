/-!
# Values

Operands and results of operators. A mapping lists its entries in the order in which their keys came;
that no two keys of it are equal is kept by the operations that build mappings.
-/
namespace Formula

/-- An operand or a result. -/
inductive Value where
  | number (x : Float)
  | boolean (b : Bool)
  | text (s : String)
  | sequence (items : List Value)
  | mapping (entries : List (Value × Value))

/-- A decidable proposition stands for its truth value. -/
instance (p : Prop) [Decidable p] : CoeDep Prop p Value := ⟨.boolean p⟩

/-- The entries of a mapping, first key first. -/
abbrev Mapping := List (Value × Value)

/-- The five cases of values. -/
inductive Kind where
  | number
  | boolean
  | text
  | sequence
  | mapping
  deriving DecidableEq, Repr

def Kind.name : Kind → String
  | .number => "Number"
  | .boolean => "Boolean"
  | .text => "Text"
  | .sequence => "Sequence"
  | .mapping => "Mapping"

def Value.kind : Value → Kind
  | .number _ => .number
  | .boolean _ => .boolean
  | .text _ => .text
  | .sequence _ => .sequence
  | .mapping _ => .mapping

end Formula
