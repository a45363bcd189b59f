import Formula.Builtin
import Formula.Proofs.Value.Equality
/-!
# The equality operators

Which meaning of a relation applies does not depend on the order of its operands: two numbers stay two
numbers, and two texts two texts. So a relation whose meanings are all turned around holds of the
operands turned around. The equality operators share their meanings, up to a negation and to one branch
of one of them, and among well-keyed values none of them cares for the order.

Results:
* `Comparison.of_swap`, `Relation.holds_converse`: operands turned around.
* `Relation.holds_congr`: only the meanings for the kinds of the operands matter.
* `equal_eq_beq`, `equal_comm`: equality by kind.
* `equalities_cohere`: the operators of the language.
-/
namespace Formula

variable {a b : Value}

/-! ## Operands turned around -/

/-- The same operands, the right one first. -/
def Comparison.swap : Comparison → Comparison
  | .numbers x y => .numbers y x
  | .texts s t => .texts t s
  | .sequences xs ys => .sequences ys xs
  | .mappings m n => .mappings n m

theorem Comparison.of_swap (a b : Value) : of b a = (of a b).swap := by
  cases a <;> cases b <;> rfl

theorem Comparison.of_eq_sequences {xs ys : List Value} (h : of a b = .sequences xs ys) :
    a = .sequence xs ∧ b = .sequence ys := by
  cases a <;> cases b <;> cases h
  exact ⟨rfl, rfl⟩

theorem Comparison.of_eq_mappings {m n : Mapping} (h : of a b = .mappings m n) :
    a = .mapping m ∧ b = .mapping n := by
  cases a <;> cases b <;> cases h
  exact ⟨rfl, rfl⟩

/-- The relation that holds of two operands when the given one holds of them turned around. -/
def Relation.converse (r : Relation) : Relation where
  numeric x y := r.numeric y x
  textual s t := r.textual t s
  sequence xs ys := r.sequence ys xs
  mapping m n := r.mapping n m

theorem Relation.holds_converse (r : Relation) (a b : Value) :
    r.converse.holds b a = r.holds a b := by
  unfold holds
  rw [Comparison.of_swap a b]
  cases Comparison.of a b <;> rfl

/-- Relations agree on two operands when the meanings do that can apply to them. -/
theorem Relation.holds_congr {r r' : Relation} (hnumeric : r.numeric = r'.numeric)
    (htextual : r.textual = r'.textual)
    (hsequence : a.kind = .sequence → b.kind = .sequence → r.sequence = r'.sequence)
    (hmapping : a.kind = .mapping → b.kind = .mapping → r.mapping = r'.mapping) :
    r.holds a b = r'.holds a b := by
  unfold holds
  cases h : Comparison.of a b with
  | numbers x y => exact congrFun₂ hnumeric x y
  | texts s t => exact congrFun₂ htextual s t
  | sequences xs ys =>
    obtain ⟨rfl, rfl⟩ := Comparison.of_eq_sequences h
    exact congrFun₂ (hsequence rfl rfl) xs ys
  | mappings m n =>
    obtain ⟨rfl, rfl⟩ := Comparison.of_eq_mappings h
    exact congrFun₂ (hmapping rfl rfl) m n

/-! ## Equality by kind -/

namespace Operator

/-- Values of one kind are compared as values, two booleans by the numbers that they stand for. -/
theorem equal_eq_beq (h : a.kind = b.kind) : equal.holds a b = (a == b) := by
  cases a with
  | number x => cases b <;> cases h; rfl
  | boolean c =>
    cases b <;> cases h
    next d => cases c <;> cases d <;> rfl
  | text s =>
    cases b <;> cases h
    next t =>
      change ((Value.text s).toText == (Value.text t).toText) = (s == t)
      rw [Value.toText_text, Value.toText_text]
  | sequence xs => cases b <;> cases h; rfl
  | mapping m => cases b <;> cases h; rfl

/-- Only between two sequences or two mappings does the order matter to a meaning of equality, and
there both operands have to be well-keyed. -/
theorem equal_comm (ha : a.WellKeyed) (hb : b.WellKeyed) :
    equal.holds a b = equal.holds b a := by
  by_cases hkind : a.kind = b.kind
  · rw [equal_eq_beq hkind, equal_eq_beq hkind.symm]
    exact Value.coherent_wellKeyed.comm ha hb
  · rw [← equal.holds_converse a b]
    refine Relation.holds_congr ?_ ?_ ?_ ?_
    · exact funext₂ fun x y => BEq.comm
    · exact funext₂ fun s t => BEq.comm
    · exact fun hkb hka => absurd (hka.trans hkb.symm) hkind
    · exact fun hkb hka => absurd (hka.trans hkb.symm) hkind

theorem unequal_holds (a b : Value) : unequal.holds a b = !equal.holds a b := by
  rw [unequal_eq_complement, Relation.holds_complement]

/-- The meaning for two sequences is the one that is not negated. -/
theorem unequalButSequences_holds (a b : Value) :
    unequalButSequences.holds a b =
      if a.kind = .sequence ∧ b.kind = .sequence then equal.holds a b else !equal.holds a b := by
  split
  · next h =>
    cases a <;> cases h.1
    cases b <;> cases h.2
    rfl
  · next h =>
    rw [← unequal_holds]
    refine Relation.holds_congr rfl rfl ?_ fun _ _ => rfl
    exact fun ha hb => absurd ⟨ha, hb⟩ h

end Operator

/-! ## The language -/

section Apply

variable {σ : Type} [Scope σ] (scope : σ) (a b : Value)

theorem apply_equality {symbol : String} (h : symbol = "==" ∨ symbol = "EQUALS") :
    apply symbol [a, b] scope = .ok (some (.boolean (Operator.equal.holds a b))) := by
  rcases h with rfl | rfl <;> rfl

theorem apply_inequality :
    apply "!=" [a, b] scope = .ok (some (.boolean (!Operator.equal.holds a b))) := by
  rw [← Operator.unequal_holds]
  rfl

theorem apply_inequalityKeyword :
    apply "UNEQUAL" [a, b] scope = .ok (some (.boolean (
      if a.kind = .sequence ∧ b.kind = .sequence then Operator.equal.holds a b
      else !Operator.equal.holds a b))) := by
  rw [← Operator.unequalButSequences_holds]
  rfl

end Apply

/-- **The equality operators cohere.** A relation whose meanings are all turned around holds of the
operands turned around, and one whose meanings are all negated holds where the relation does not. So
each of the four operators answers the same on well-keyed operands in either order. `EQUALS` is `==`
and `!=` its negation; `UNEQUAL` is its negation as well, but on two sequences it is `==` itself. On
operands of one kind `==` is equality of values. -/
theorem equalities_cohere {σ : Type} [Scope σ] (scope : σ) :
    (∀ (r : Relation) (a b : Value),
      r.converse.holds b a = r.holds a b ∧ r.complement.holds a b = !r.holds a b) ∧
    (∀ a b : Value, a.WellKeyed → b.WellKeyed → ∀ symbol ∈ ["==", "!=", "EQUALS", "UNEQUAL"],
      ∃ answer : Bool, apply symbol [a, b] scope = .ok (some (.boolean answer)) ∧
        apply symbol [b, a] scope = .ok (some (.boolean answer))) ∧
    (∀ a b : Value, ∃ answer : Bool,
      apply "==" [a, b] scope = .ok (some (.boolean answer)) ∧
      apply "EQUALS" [a, b] scope = .ok (some (.boolean answer)) ∧
      apply "!=" [a, b] scope = .ok (some (.boolean (!answer))) ∧
      apply "UNEQUAL" [a, b] scope = .ok (some (.boolean (
        if a.kind = .sequence ∧ b.kind = .sequence then answer else !answer))) ∧
      (a.kind = b.kind → answer = (a == b))) := by
  refine ⟨fun r a b => ⟨r.holds_converse a b, r.holds_complement a b⟩, ?_, ?_⟩
  · intro a b ha hb symbol hsymbol
    have hcomm := Operator.equal_comm ha hb
    simp only [List.mem_cons, List.not_mem_nil, or_false] at hsymbol
    rcases hsymbol with rfl | rfl | rfl | rfl
    · refine ⟨_, apply_equality scope a b (.inl rfl), ?_⟩
      rw [apply_equality scope b a (.inl rfl), hcomm]
    · refine ⟨_, apply_inequality scope a b, ?_⟩
      rw [apply_inequality, hcomm]
    · refine ⟨_, apply_equality scope a b (.inr rfl), ?_⟩
      rw [apply_equality scope b a (.inr rfl), hcomm]
    · refine ⟨_, apply_inequalityKeyword scope a b, ?_⟩
      rw [apply_inequalityKeyword, hcomm]
      simp only [and_comm]
  · intro a b
    exact ⟨_, apply_equality scope a b (.inl rfl), apply_equality scope a b (.inr rfl),
      apply_inequality scope a b, apply_inequalityKeyword scope a b, Operator.equal_eq_beq⟩

/-- Entries in another order with another zero, the keyword on two sequences, and a boolean that
equals a number. -/
theorem equalities_cohere_permuted :
    let a : Value := .mapping [(.number 0.0, .boolean true), (.text "k", .sequence [])]
    let a' : Value := .mapping [(.text "k", .sequence []), (.number (-0.0), .boolean true)]
    a.WellKeyed ∧ a'.WellKeyed ∧ (a == a') = true ∧
      apply "==" [a, a'] Variables.empty = .ok (some (.boolean true)) ∧
      apply "UNEQUAL" [a', a] Variables.empty = .ok (some (.boolean false)) ∧
      apply "UNEQUAL" [.sequence [a], .sequence [a']] Variables.empty =
        .ok (some (.boolean true)) ∧
      apply "!=" [.sequence [a], .sequence [a']] Variables.empty = .ok (some (.boolean false)) ∧
      apply "==" [.number 1.0, .boolean true] Variables.empty = .ok (some (.boolean true)) := by
  intro a a'
  have ha : a.WellKeyed := by simp [a, Assoc.Distinct]; decide
  have ha' : a'.WellKeyed := by simp [a', Assoc.Distinct]; decide
  have hbeq : (a == a') = true := by decide
  obtain ⟨-, hcomm, hfamily⟩ := equalities_cohere Variables.empty
  obtain ⟨answer, hequal, -, -, hkeyword, hsame⟩ := hfamily a a'
  obtain rfl : answer = true := (hsame rfl).trans hbeq
  obtain ⟨answer, hleft, hright⟩ := hcomm a a' ha ha' "UNEQUAL" (by simp)
  cases hkeyword.symm.trans hleft
  obtain ⟨answer, -, -, hitems, hitems', hsame⟩ := hfamily (.sequence [a]) (.sequence [a'])
  obtain rfl : answer = true := (hsame rfl).trans (by decide)
  exact ⟨ha, ha', hbeq, hequal, hright, hitems', hitems, rfl⟩

end Formula
