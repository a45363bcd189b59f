import Formula.Proofs.Operator.Collections
import Formula.Proofs.Operator.Index
/-!
# Access by several indices

Several indices are looked up one after the other, each as if it were the only one, so access takes sums
of sequences of indices to sums of the results. The first that is not there decides, where a key that
is missing counts as well.

Results:
* `Value.access_singleton`, `Value.access_append`: an only index, and sums of indices.
* `several_indices_homomorphic`: the operators of the language.
-/
namespace Formula

/-! ## Several indices -/

/-- What one index alone finds, asked for in a sequence. Then it must be there. -/
def onlyOne (index : Value) : Outcome → Outcome
  | .ok (some v) => .ok (some (.sequence [v]))
  | .ok none => .error (.keyNotFound index.toText)
  | .error f => .error f

namespace Value

variable {operator : String} {container index : Value} {is js : List Value}

theorem access_of_not_isContainer (hc : container.isContainer = false) (index : Value) :
    container.access operator index = .error (.unsupported operator container.kind) := by
  simp [access, hc]

theorem access_sequence (hc : container.isContainer = true) (is : List Value) :
    container.access operator (.sequence is) =
      (container.elements operator is).map fun vs => some (.sequence vs) := by
  simp only [access, hc, if_true]
  cases container.elements operator is <;> rfl

theorem elements_append (is js : List Value) : container.elements operator (is ++ js) = do
    let vs ← container.elements operator is
    let ws ← container.elements operator js
    return vs ++ ws :=
  List.mapM_append

theorem access_singleton (hc : container.isContainer = true) :
    container.access operator (.sequence [index]) =
      onlyOne index (container.element operator index) := by
  rw [access_sequence hc, elements, List.mapM_cons, List.mapM_nil]
  cases container.element operator index with
  | error f => rfl
  | ok v? => cases v? <;> rfl

end Value

/-- The outcome for a sum of sequences of indices, from those for its operands. -/
inductive Joined {σ : Type} [Scope σ] (scope : σ) : Outcome → Outcome → Outcome → Prop where
  | left (f : Fault) (right : Outcome) : Joined scope (.error f) right (.error f)
  | right (vs : List Value) (f : Fault) :
    Joined scope (.ok (some (.sequence vs))) (.error f) (.error f)
  | both (vs ws : List Value) : Joined scope (.ok (some (.sequence vs)))
    (.ok (some (.sequence ws))) (apply "+" [.sequence vs, .sequence ws] scope)

theorem Value.access_append {σ : Type} [Scope σ] (scope : σ) (operator : String) (container : Value)
    (is js : List Value) :
    Joined scope (container.access operator (.sequence is))
      (container.access operator (.sequence js)) (container.access operator (.sequence (is ++ js))) := by
  cases hc : container.isContainer with
  | false =>
    simp only [access_of_not_isContainer hc]
    exact .left _ _
  | true =>
    simp only [access_sequence hc, elements_append]
    cases container.elements operator is with
    | error f => exact .left f _
    | ok vs =>
      cases container.elements operator js with
      | error f => exact .right vs f
      | ok ws => exact .both vs ws

/-- **Several indices are looked up one by one.** Access by a sum of sequences of indices fails as access
by the left one does, or else as access by the right one, and otherwise gives the sum of both results.
A result has one element for each index, in their order, the one that this index gives when it is the
only one. An only index that is no sequence gives what it gives by itself, but it has to be there; one
that is a sequence is a key of a mapping, and nothing else. -/
theorem several_indices_homomorphic {σ : Type} [Scope σ] (scope : σ) :
    ∀ symbol, symbol = "@" ∨ symbol = "AT" → ∀ container : Value,
      (∀ is js : List Value, ∃ sum,
        apply "+" [.sequence is, .sequence js] scope = .ok (some sum) ∧
        Joined scope (apply symbol [container, .sequence is] scope)
          (apply symbol [container, .sequence js] scope) (apply symbol [container, sum] scope)) ∧
      (∀ (is : List Value) (result : Option Value),
        apply symbol [container, .sequence is] scope = .ok result →
        ∃ vs, result = some (.sequence vs) ∧ vs.length = is.length ∧
          List.Forall₂ (fun i v => apply symbol [container, .sequence [i]] scope =
            .ok (some (.sequence [v]))) is vs) ∧
      (∀ index : Value, index.kind ≠ .sequence →
        apply symbol [container, .sequence [index]] scope =
          onlyOne index (apply symbol [container, index] scope)) ∧
      (∀ (is : List Value) (m : Mapping), container = .mapping m →
        apply symbol [container, .sequence [.sequence is]] scope =
          onlyOne (.sequence is) (.ok (m.get? (.sequence is)))) ∧
      (∀ is : List Value, container.IsPositional →
        apply symbol [container, .sequence [.sequence is]] scope =
          .error (.unsupported symbol .sequence)) := by
  intro symbol hsymbol container
  simp only [apply_elementAccess scope _ _ hsymbol]
  refine ⟨?_, ?_, ?_, ?_, ?_⟩
  · intro is js
    exact ⟨_, apply_addition_sequences scope is js, container.access_append scope symbol is js⟩
  · intro is result h
    cases hc : container.isContainer with
    | false =>
      rw [Value.access_of_not_isContainer hc] at h
      cases h
    | true =>
      rw [Value.access_sequence hc] at h
      obtain ⟨vs, hvs, rfl⟩ := map_eq_ok.1 h
      have hall := Value.elements_eq_ok_iff.1 hvs
      refine ⟨vs, rfl, hall.length_eq.symm, hall.imp fun i v hv => ?_⟩
      rw [Value.access_singleton hc, hv]
      rfl
  · intro index hindex
    cases hc : container.isContainer with
    | false =>
      simp only [Value.access_of_not_isContainer hc]
      rfl
    | true => rw [Value.access_singleton hc, Value.access_eq_element hc hindex]
  · rintro is m rfl
    exact Value.access_singleton rfl
  · intro is hpositional
    rw [Value.access_singleton hpositional.isContainer, Value.element_eq hpositional]
    rfl

/-- A key of a mapping that is a sequence, a key that is not there, and a sequence in a text. -/
theorem several_indices_homomorphic_keys :
    let c : Value := .mapping [(.text "w", .number 640.0), (.sequence [.number 1.0], .text "one")]
    let is : List Value := [.text "w", .sequence [.number 1.0], .text "w"]
    apply "@" [c, .sequence is] Variables.empty =
        .ok (some (.sequence [.number 640.0, .text "one", .number 640.0])) ∧
      apply "@" [c, .sequence [.sequence [.number 1.0]]] Variables.empty =
        .ok (some (.sequence [.text "one"])) ∧
      apply "@" [c, .text "h"] Variables.empty = .ok none ∧
      apply "@" [c, .sequence [.text "h"]] Variables.empty = .error (.keyNotFound "h") ∧
      (∃ sum, apply "+" [.sequence is, .sequence [.text "h"]] Variables.empty = .ok (some sum) ∧
        apply "@" [c, sum] Variables.empty = .error (.keyNotFound "h")) ∧
      apply "AT" [.text "ab", .sequence [.sequence []]] Variables.empty =
        .error (.unsupported "AT" .sequence) := by
  intro c is
  obtain ⟨happend, -, hone, hkey, -⟩ :=
    several_indices_homomorphic Variables.empty "@" (.inl rfl) c
  obtain ⟨-, -, -, -, hnested⟩ :=
    several_indices_homomorphic Variables.empty "AT" (.inr rfl) (.text "ab")
  have hmissing : apply "@" [c, .sequence [.text "h"]] Variables.empty =
      .error (.keyNotFound "h") := hone (.text "h") nofun
  have his : apply "@" [c, .sequence is] Variables.empty =
      .ok (some (.sequence [.number 640.0, .text "one", .number 640.0])) := rfl
  obtain ⟨sum, hsum, hjoined⟩ := happend is [.text "h"]
  rw [his, hmissing] at hjoined
  refine ⟨his, hkey _ _ rfl, rfl, hmissing, ⟨sum, hsum, ?_⟩, hnested [] (.inr rfl)⟩
  generalize apply "@" [c, sum] Variables.empty = outcome at hjoined
  cases hjoined
  rfl

end Formula
