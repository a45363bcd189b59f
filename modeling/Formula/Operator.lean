import Formula.Fault
import Formula.Scope
/-!
# Operators

An operator has a signature, which a parser of formulas goes by, and a meaning: it takes operands from
the front of a list, may look names up, and yields an outcome and the operands that it left.
`Operator.unary` and `Operator.binary` take their operands before they look at them, so a missing
operand is reported before an unfit one.

Results:
* `unary_nil`, `unary_cons`, `binary_nil`, `binary_singleton`, `binary_cons`: what they evaluate to.
-/
namespace Formula

/-- Which way equal operators group. -/
inductive Associativity where
  | left
  | right
  deriving DecidableEq, Repr

def Associativity.name : Associativity → String
  | .left => "left"
  | .right => "right"

structure Parameter where
  name : String
  description : String
  kinds : List Kind
  deriving DecidableEq, Repr

def Kind.all : List Kind := [.number, .boolean, .text, .sequence, .mapping]

/-- The kinds that can stand for a number. -/
def Kind.numeric : List Kind := [.number, .boolean, .text]

/-- The left and the right operand of an operator that treats both alike. -/
def Parameter.pair (kinds : List Kind) : List Parameter :=
  [⟨"x", "The left operand", kinds⟩, ⟨"y", "The right operand", kinds⟩]

/-- What is known of an operator without evaluating it. -/
structure Signature where
  symbol : String
  arity : Nat
  associativity : Associativity
  /-- The greater, the tighter the operator binds. -/
  precedence : Int
  parameters : List Parameter
  deriving DecidableEq, Repr

/-- A value, absence, or a fault. -/
abbrev Outcome := Except Fault (Option Value)

/-- Work that takes operands from the front of a list. Those taken stay taken when it fails. -/
abbrev Taking := ExceptT Fault (StateM (List Value))

/-- The result for these operands, and the operands that are left. -/
def Taking.run {α : Type} (work : Taking α) (operands : List Value) :
    Except Fault α × List Value :=
  StateT.run (ExceptT.run work) operands

structure Operator where
  signature : Signature
  evaluate : Lookup → List Value → Outcome × List Value

namespace Operator

def symbol (op : Operator) : String := op.signature.symbol

def arity (op : Operator) : Nat := op.signature.arity

def missing (s : Signature) : Fault := .missingOperand s.symbol s.arity

def next (s : Signature) : Taking Value := do
  match ← get with
  | [] => throw (missing s)
  | a :: rest =>
    set rest
    return a

def nextPair (s : Signature) : Taking (Value × Value) := do
  let a ← next s
  let b ← next s
  return (a, b)

def unary (s : Signature) (f : Lookup → Value → Outcome) : Operator where
  signature := s
  evaluate lookup := Taking.run do
    let a ← next s
    f lookup a

/-- An operator that takes two operands, and looks no names up. -/
def binary (s : Signature) (f : Value → Value → Outcome) : Operator where
  signature := s
  evaluate _ := Taking.run do
    let (a, b) ← nextPair s
    f a b

section Evaluation

variable (s : Signature) (lookup : Lookup) (a b : Value) (rest : List Value)

theorem unary_nil (f : Lookup → Value → Outcome) :
    (unary s f).evaluate lookup [] = (.error (missing s), []) := rfl

theorem unary_cons (f : Lookup → Value → Outcome) :
    (unary s f).evaluate lookup (a :: rest) = (f lookup a, rest) := rfl

theorem binary_nil (f : Value → Value → Outcome) :
    (binary s f).evaluate lookup [] = (.error (missing s), []) := rfl

theorem binary_singleton (f : Value → Value → Outcome) :
    (binary s f).evaluate lookup [a] = (.error (missing s), []) := rfl

theorem binary_cons (f : Value → Value → Outcome) :
    (binary s f).evaluate lookup (a :: b :: rest) = (f a b, rest) := rfl

end Evaluation

end Operator

end Formula
