import Formula.Operator
import Formula.Operator.Coercion
import Formula.Value.Mapping
import Formula.Value.Text
/-!
# Meanings by kind

An operator of any kinds has one meaning for numbers, one for texts, one for sequences and one for
mappings. The kinds of the operands decide which one applies: `Combination` says how for an
`Arithmetic`, which goes by the left operand and hands the right one on as it is, and `Comparison`
for a `Relation`, which needs two collections of one kind and compares everything else by text.

Results:
* `Combination.of_eq_sequence`, `Combination.of_eq_mapping`: the left operand is that collection.
* `Relation.holds_complement`: complementing every meaning complements the relation.
-/
namespace Formula

/-- Two operands of an arithmetic operator, as its meanings take them. -/
inductive Combination where
  | numbers (x y : Float)
  | texts (s t : String)
  | sequence (items : List Value) (right : Value)
  | mapping (m : Mapping) (right : Value)

/-- Two operands that are numbers or booleans are numbers; else a collection on the left decides; the
rest are texts. -/
def Combination.of (a b : Value) : Combination :=
  match a.promoted?, b.promoted? with
  | some x, some y => .numbers x y
  | _, _ =>
    match a with
    | .sequence items => .sequence items b
    | .mapping m => .mapping m b
    | a => .texts a.toText b.toText

theorem Combination.of_eq_sequence {a b c : Value} {items : List Value}
    (h : of a b = .sequence items c) : a = .sequence items ∧ c = b := by
  unfold of at h
  split at h
  · cases h
  · split at h
    · cases h
      exact ⟨rfl, rfl⟩
    · cases h
    · cases h

theorem Combination.of_eq_mapping {a b c : Value} {m : Mapping}
    (h : of a b = .mapping m c) : a = .mapping m ∧ c = b := by
  unfold of at h
  split at h
  · cases h
  · split at h
    · cases h
    · cases h
      exact ⟨rfl, rfl⟩
    · cases h

structure Arithmetic where
  numeric : Float → Float → Except Fault Value
  textual : String → String → Except Fault Value
  sequence : List Value → Value → Except Fault Value
  mapping : Mapping → Value → Except Fault Value

def Arithmetic.apply (f : Arithmetic) (a b : Value) : Except Fault Value :=
  match Combination.of a b with
  | .numbers x y => f.numeric x y
  | .texts s t => f.textual s t
  | .sequence items b => f.sequence items b
  | .mapping m b => f.mapping m b

/-- Two operands of a relation, as its meanings take them. -/
inductive Comparison where
  | numbers (x y : Float)
  | texts (s t : String)
  | sequences (xs ys : List Value)
  | mappings (m n : Mapping)

/-- Two operands that are numbers or booleans are numbers; two sequences or two mappings are
themselves; the rest are texts. -/
def Comparison.of (a b : Value) : Comparison :=
  match a.promoted?, b.promoted? with
  | some x, some y => .numbers x y
  | _, _ =>
    match a, b with
    | .sequence xs, .sequence ys => .sequences xs ys
    | .mapping m, .mapping n => .mappings m n
    | a, b => .texts a.toText b.toText

structure Relation where
  numeric : Float → Float → Bool
  textual : String → String → Bool
  sequence : List Value → List Value → Bool
  mapping : Mapping → Mapping → Bool

def Relation.holds (r : Relation) (a b : Value) : Bool :=
  match Comparison.of a b with
  | .numbers x y => r.numeric x y
  | .texts s t => r.textual s t
  | .sequences xs ys => r.sequence xs ys
  | .mappings m n => r.mapping m n

def Relation.complement (r : Relation) : Relation where
  numeric x y := !r.numeric x y
  textual s t := !r.textual s t
  sequence xs ys := !r.sequence xs ys
  mapping m n := !r.mapping m n

theorem Relation.holds_complement (r : Relation) (a b : Value) :
    r.complement.holds a b = !r.holds a b := by
  simp only [holds]
  split <;> rfl

namespace Operator

def arithmetic (s : Signature) (f : Arithmetic) : Operator :=
  binary s fun a b => (f.apply a b).map some

def relation (s : Signature) (r : Relation) : Operator :=
  binary s fun a b => .ok (some (.boolean (r.holds a b)))

end Operator

end Formula
