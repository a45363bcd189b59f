import Formula.Number.Integral
import Formula.Operator
import Formula.Value.Mapping
import Formula.Value.Text
/-!
# Element access

The container decides how an index is read. Sequences and texts take numbers, cut off to integers,
and negative ones count from the end, around as often as needed; mappings take keys as they are. A
sequence of indices asks for the sequence of the elements, and then every one of them must exist.
-/
namespace Formula

/-- The position below `length` that an index means. -/
def wrapIndex (index : Int) (length : Nat) : Except Fault Nat :=
  let position := if index < 0 ∧ 0 < length then index % length else index
  if 0 ≤ position ∧ position < length then .ok position.toNat
  else .error (.outOfBounds index length)

/-- The position in a container of this length that an index value means. -/
def Value.position (operator : String) (length : Nat) : Value → Except Fault Nat
  | .number x => wrapIndex (Number.toIndex x) length
  | v => .error (.unsupported operator v.kind)

/-- The element at one index; a mapping may have none. -/
def Value.element (operator : String) (container index : Value) : Outcome :=
  match container with
  | .sequence items => do
    let i ← index.position operator items.length
    return items[i]?
  | .text s => do
    let cs := s.toList
    let i ← index.position operator cs.length
    return cs[i]?.map fun c => .text (String.singleton c)
  | .mapping m => .ok (Mapping.get? m index)
  | v => .error (.unsupported operator v.kind)

/-- The elements at several indices, in their order; the first that is not there is reported. -/
def Value.elements (operator : String) (container : Value) (indices : List Value) :
    Except Fault (List Value) :=
  indices.mapM fun index => do
    match ← container.element operator index with
    | some v => return v
    | none => throw (.keyNotFound index.toText)

def Value.isContainer : Value → Bool
  | .sequence _ | .mapping _ | .text _ => true
  | _ => false

/-- The element at an index, or the elements at a sequence of indices. -/
def Value.access (operator : String) (container index : Value) : Outcome :=
  if container.isContainer then
    match index with
    | .sequence indices => do
      let vs ← container.elements operator indices
      return some (.sequence vs)
    | index => container.element operator index
  else .error (.unsupported operator container.kind)

/-- The operator that reads elements. It binds tightest of those between two operands. -/
def Operator.elementAccess (symbol : String) : Operator :=
  let container : Parameter :=
    ⟨"container", "The sequence, mapping or text to read from", [.sequence, .mapping, .text]⟩
  let index : Parameter := ⟨"index", "An index, a mapping key, or a sequence of them", Kind.all⟩
  binary ⟨symbol, 2, .right, 9, [container, index]⟩ (Value.access symbol)

end Formula
