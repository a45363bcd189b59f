import Formula.Builtin
import Mathlib.Data.List.Basic
/-!
# Operands that an operator takes

An operator takes as many operands as its arity says, if there are so many, before it looks at any of
them, and never more. So what is left does not depend on the outcome, and neither a later operand nor
a fault in an early one has an effect on it.

Results:
* `TakesOperands.of_front`: it is enough to know the operator on lists that are too short, and on
  lists split behind the operands it takes.
* `takes_operands`: every operator, also under other symbols.
-/
namespace Formula.Operator

/-- The operator takes as many operands as its arity says, or all there are, and reports a missing one
when these are too few. Its outcome depends on nothing but the operands it takes. -/
structure TakesOperands (op : Operator) : Prop where
  rest : ∀ lookup operands,
    (op.evaluate lookup operands).2 = operands.drop (min op.arity operands.length)
  missing : ∀ lookup operands, operands.length < op.arity →
    (op.evaluate lookup operands).1 = .error (.missingOperand op.symbol op.arity)
  outcome : ∀ lookup operands, op.arity ≤ operands.length →
    (op.evaluate lookup operands).1 = (op.evaluate lookup (operands.take op.arity)).1
  more : ∀ lookup operands added, op.arity ≤ operands.length →
    (op.evaluate lookup (operands ++ added)).1 = (op.evaluate lookup operands).1

variable {op : Operator}

theorem TakesOperands.of_front
    (hshort : ∀ lookup operands, operands.length < op.arity →
      op.evaluate lookup operands = (.error (Operator.missing op.signature), []))
    (hfront : ∀ lookup front rest, front.length = op.arity →
      op.evaluate lookup (front ++ rest) = ((op.evaluate lookup front).1, rest)) :
    op.TakesOperands := by
  -- A list that is long enough is its front and the rest.
  have hsplit : ∀ lookup operands, op.arity ≤ operands.length → op.evaluate lookup operands =
      ((op.evaluate lookup (operands.take op.arity)).1, operands.drop op.arity) := by
    intro lookup operands h
    have hlength : (operands.take op.arity).length = op.arity := by
      rw [List.length_take]
      omega
    have hf := hfront lookup (operands.take op.arity) (operands.drop op.arity) hlength
    rwa [List.take_append_drop] at hf
  refine ⟨?_, ?_, ?_, ?_⟩
  · intro lookup operands
    rcases Nat.lt_or_ge operands.length op.arity with h | h
    · rw [hshort lookup operands h, Nat.min_eq_right (Nat.le_of_lt h), List.drop_length]
    · rw [hsplit lookup operands h, Nat.min_eq_left h]
  · intro lookup operands h
    rw [hshort lookup operands h]
    rfl
  · intro lookup operands h
    rw [hsplit lookup operands h]
  · intro lookup operands added h
    have hadded : op.arity ≤ (operands ++ added).length := by
      rw [List.length_append]
      omega
    rw [hsplit lookup _ hadded, hsplit lookup operands h, List.take_append_of_le_length h]

theorem takesOperands_unary {s : Signature} (hs : s.arity = 1) (f : Lookup → Value → Outcome) :
    (unary s f).TakesOperands := by
  have harity : (unary s f).arity = 1 := hs
  apply TakesOperands.of_front
  · intro lookup operands h
    rw [harity] at h
    cases operands with
    | nil => exact unary_nil s lookup f
    | cons a rest =>
      rw [List.length_cons] at h
      omega
  · intro lookup front rest h
    rw [harity, List.length_eq_one_iff] at h
    obtain ⟨a, rfl⟩ := h
    exact unary_cons s lookup a rest f

theorem takesOperands_binary {s : Signature} (hs : s.arity = 2) (f : Value → Value → Outcome) :
    (binary s f).TakesOperands := by
  have harity : (binary s f).arity = 2 := hs
  apply TakesOperands.of_front
  · intro lookup operands h
    rw [harity] at h
    match operands with
    | [] => exact binary_nil s lookup f
    | [a] => exact binary_singleton s lookup a f
    | a :: b :: rest =>
      rw [List.length_cons, List.length_cons] at h
      omega
  · intro lookup front rest h
    rw [harity, List.length_eq_two] at h
    obtain ⟨a, b, rfl⟩ := h
    exact binary_cons s lookup a b rest f

theorem takesOperands_arithmetic {s : Signature} (hs : s.arity = 2) (f : Arithmetic) :
    (arithmetic s f).TakesOperands :=
  takesOperands_binary hs _

theorem takesOperands_relation {s : Signature} (hs : s.arity = 2) (r : Relation) :
    (relation s r).TakesOperands :=
  takesOperands_binary hs _

theorem takesOperands_numeric {s : Signature} (hs : s.arity = 2) (f : Float → Float → Value) :
    (numeric s f).TakesOperands :=
  takesOperands_binary hs _

theorem Provided.takesOperands (h : op.Provided) : op.TakesOperands := by
  cases h with
  | addition => exact takesOperands_arithmetic rfl sum
  | subtraction => exact takesOperands_arithmetic rfl difference
  | multiplication => exact takesOperands_numeric rfl fun x y => .number (x * y)
  | division => exact takesOperands_numeric rfl fun x y => .number (x / y)
  | modulo => exact takesOperands_numeric rfl fun x y => .number (Number.remainder x y)
  | power => exact takesOperands_numeric rfl fun x y => .number (x.pow y)
  | negation => exact takesOperands_unary rfl _
  | equality symbol => exact takesOperands_relation rfl equal
  | inequality symbol => exact takesOperands_relation rfl unequal
  | inequalityKeyword symbol => exact takesOperands_relation rfl unequalButSequences
  | ordering symbol f => exact takesOperands_numeric rfl f
  | logicalNot symbol => exact takesOperands_unary rfl _
  | connective symbol precedence f => exact takesOperands_binary rfl _
  | needleFirst symbol => exact takesOperands_binary rfl _
  | haystackFirst symbol => exact takesOperands_binary rfl _
  | elementAccess symbol => exact takesOperands_binary rfl _
  | resolve => exact takesOperands_unary rfl _
  | existence => exact takesOperands_unary rfl _

/-- **Operands taken.** The operators of the language, and those that can be made under other symbols,
take as many operands as there are, up to their arity. With fewer operands than that they report a
missing one, and further operands do not change the outcome. -/
theorem takes_operands (h : op ∈ builtins.operators ∨ op.Provided) : op.TakesOperands :=
  (h.elim (fun hop => provided_of_mem (Catalog.mem_of_mem_ofList hop)) id).takesOperands

/-- An unfit operand is left unread when the other one is missing, and one is taken when the outcome is
its fault; also where a comparison answers with both of its numbers. -/
theorem takes_operands_short :
    addition.TakesOperands ∧
    (∀ lookup : Lookup,
      ((connective "NAND" 2 fun x y => !(x && y)).evaluate lookup [.number 1.0]).1 =
        .error (.missingOperand "NAND" 2)) ∧
    ∀ lookup : Lookup,
      ((ordering "<=>" fun x y => .sequence [.number x, .number y]).evaluate lookup
        [.boolean true, .text "x", .text "y"]).2 = [.text "y"] := by
  have hmem : addition ∈ builtins.operators :=
    Catalog.mem_of_find? (show builtins.find? "+" 2 = some addition from rfl)
  refine ⟨takes_operands (.inl hmem), ?_, ?_⟩
  · intro lookup
    have h := takes_operands (.inr (.connective "NAND" 2 fun x y => !(x && y)))
    exact h.missing lookup [.number 1.0] (by decide)
  · intro lookup
    have h := takes_operands (.inr (.ordering "<=>" fun x y => .sequence [.number x, .number y]))
    exact h.rest lookup [.boolean true, .text "x", .text "y"]

end Formula.Operator
