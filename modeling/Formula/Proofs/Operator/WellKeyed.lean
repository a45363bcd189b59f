import Formula.Builtin
import Formula.Proofs.Except
import Formula.Proofs.Mapping.WellKeyed
import Formula.Proofs.Operator.Unfit
/-!
# Operators keep keys distinct

What an operator of the language makes of well-keyed operands, in a scope of well-keyed values, is
well-keyed. Most operators make scalars. Sums and differences go through the operations on mappings;
element access and `$` answer what was there before.

Results:
* `keepsKeys_unary`, `keepsKeys_binary`: what the meaning of an operator has to do.
* `wellKeyed_element`, `wellKeyed_elements`: elements of containers.
* `keepsKeys_of_mem`: every operator of the language.
* `wellKeyed_apply`: application by symbol.
-/
namespace Formula

def Lookup.WellKeyed (lookup : Lookup) : Prop :=
  ∀ name v, lookup name = some v → v.WellKeyed

namespace Outcome

/-- The value, if there is one, is well-keyed. -/
def WellKeyed (outcome : Outcome) : Prop := ∀ v, outcome = .ok (some v) → v.WellKeyed

theorem wellKeyed_error (e : Fault) : WellKeyed (.error e) := nofun

theorem wellKeyed_some {v : Value} (h : v.WellKeyed) : WellKeyed (.ok (some v)) := by
  intro w hw
  cases hw
  exact h

theorem wellKeyed_bind {α : Type} {x : Except Fault α} {k : α → Outcome}
    (h : ∀ a, x = .ok a → WellKeyed (k a)) : WellKeyed (x >>= k) := by
  cases x with
  | error e => exact wellKeyed_error e
  | ok a => exact h a rfl

end Outcome

namespace Operator

open Outcome

/-- Well-keyed operands and variables have well-keyed results. -/
def KeepsKeys (op : Operator) : Prop :=
  ∀ (lookup : Lookup) (operands : List Value), lookup.WellKeyed →
    (∀ a ∈ operands, a.WellKeyed) → Outcome.WellKeyed (op.evaluate lookup operands).1

theorem keepsKeys_unary {s : Signature} {f : Lookup → Value → Outcome}
    (h : ∀ (lookup : Lookup) (a : Value), lookup.WellKeyed → a.WellKeyed →
      Outcome.WellKeyed (f lookup a)) : (unary s f).KeepsKeys := by
  intro lookup operands hl ho
  cases operands with
  | nil => exact wellKeyed_error _
  | cons a rest => exact h lookup a hl (ho a List.mem_cons_self)

theorem keepsKeys_binary {s : Signature} {f : Value → Value → Outcome}
    (h : ∀ a b : Value, a.WellKeyed → b.WellKeyed → Outcome.WellKeyed (f a b)) :
    (binary s f).KeepsKeys := by
  intro lookup operands _ ho
  match operands with
  | [] => exact wellKeyed_error _
  | [_] => exact wellKeyed_error _
  | a :: b :: rest => exact h a b (ho a (by simp)) (ho b (by simp))

/-! ## Scalar results -/

theorem keepsKeys_relation (s : Signature) (r : Relation) : (relation s r).KeepsKeys :=
  keepsKeys_binary fun _ _ _ _ => wellKeyed_some (Value.wellKeyed_boolean _)

theorem keepsKeys_numeric (s : Signature) {f : Float → Float → Value}
    (h : ∀ x y, (f x y).WellKeyed) : (numeric s f).KeepsKeys :=
  keepsKeys_binary fun _ _ _ _ =>
    wellKeyed_bind fun x _ => wellKeyed_bind fun y _ => wellKeyed_some (h x y)

theorem keepsKeys_calculation (s : Signature) (f : Float → Float → Float) :
    (numeric s fun x y => .number (f x y)).KeepsKeys :=
  keepsKeys_numeric s fun _ _ => Value.wellKeyed_number _

theorem keepsKeys_ordering (symbol : String) (r : Float → Float → Bool) :
    (ordering symbol fun x y => .boolean (r x y)).KeepsKeys :=
  keepsKeys_numeric _ fun _ _ => Value.wellKeyed_boolean _

theorem keepsKeys_negation : negation.KeepsKeys :=
  keepsKeys_unary fun _ _ _ _ =>
    wellKeyed_bind fun _ _ => wellKeyed_some (Value.wellKeyed_number _)

theorem keepsKeys_logicalNot (symbol : String) : (logicalNot symbol).KeepsKeys :=
  keepsKeys_unary fun _ _ _ _ =>
    wellKeyed_bind fun _ _ => wellKeyed_some (Value.wellKeyed_boolean _)

theorem keepsKeys_connective (symbol : String) (precedence : Int) (f : Bool → Bool → Bool) :
    (connective symbol precedence f).KeepsKeys :=
  keepsKeys_binary fun _ _ _ _ =>
    wellKeyed_bind fun _ _ => wellKeyed_bind fun _ _ => wellKeyed_some (Value.wellKeyed_boolean _)

theorem keepsKeys_needleFirst (symbol : String) : (needleFirst symbol).KeepsKeys :=
  keepsKeys_binary fun _ _ _ _ => wellKeyed_some (Value.wellKeyed_boolean _)

theorem keepsKeys_haystackFirst (symbol : String) : (haystackFirst symbol).KeepsKeys :=
  keepsKeys_binary fun _ _ _ _ => wellKeyed_some (Value.wellKeyed_boolean _)

theorem keepsKeys_existence : existence.KeepsKeys :=
  keepsKeys_unary fun _ _ _ _ => wellKeyed_some (Value.wellKeyed_boolean _)

theorem keepsKeys_resolve : resolve.KeepsKeys := by
  refine keepsKeys_unary fun lookup a hl _ => ?_
  intro v hv
  exact hl a.toText v (Except.ok.inj hv)

end Operator

/-! ## Sums and differences -/

/-- Each meaning has well-keyed results for well-keyed operands. -/
structure Arithmetic.KeepsKeys (f : Arithmetic) : Prop where
  numeric : ∀ x y v, f.numeric x y = .ok v → v.WellKeyed
  textual : ∀ s t v, f.textual s t = .ok v → v.WellKeyed
  sequence : ∀ items b v, (Value.sequence items).WellKeyed → b.WellKeyed →
    f.sequence items b = .ok v → v.WellKeyed
  mapping : ∀ m b v, (Value.mapping m).WellKeyed → b.WellKeyed →
    f.mapping m b = .ok v → v.WellKeyed

theorem Arithmetic.KeepsKeys.apply {f : Arithmetic} (hf : f.KeepsKeys) {a b v : Value}
    (ha : a.WellKeyed) (hb : b.WellKeyed) (h : f.apply a b = .ok v) : v.WellKeyed := by
  unfold Arithmetic.apply at h
  split at h
  · exact hf.numeric _ _ v h
  · exact hf.textual _ _ v h
  · next hc =>
    obtain ⟨rfl, rfl⟩ := Combination.of_eq_sequence hc
    exact hf.sequence _ _ v ha hb h
  · next hc =>
    obtain ⟨rfl, rfl⟩ := Combination.of_eq_mapping hc
    exact hf.mapping _ _ v ha hb h

namespace Operator

theorem keepsKeys_arithmetic (s : Signature) {f : Arithmetic} (hf : f.KeepsKeys) :
    (arithmetic s f).KeepsKeys := by
  refine keepsKeys_binary fun a b ha hb => ?_
  intro v hv
  obtain ⟨w, hw, heq⟩ := map_eq_ok.1 hv
  cases heq
  exact hf.apply ha hb hw

theorem wellKeyed_appendValue {items : List Value} {b : Value}
    (hi : (Value.sequence items).WellKeyed) (hb : b.WellKeyed) :
    (Value.sequence (appendValue items b)).WellKeyed := by
  rw [Value.wellKeyed_sequence] at hi ⊢
  intro v hv
  unfold appendValue at hv
  split at hv
  · next more =>
    rcases List.mem_append.1 hv with hv | hv
    · exact hi v hv
    · exact (Value.wellKeyed_sequence more).1 hb v hv
  · rcases List.mem_append.1 hv with hv | hv
    · exact hi v hv
    · rw [List.mem_singleton.1 hv]
      exact hb

theorem wellKeyed_removeItems {items : List Value} (hi : (Value.sequence items).WellKeyed)
    (b : Value) : (Value.sequence (removeItems items b)).WellKeyed := by
  rw [Value.wellKeyed_sequence] at hi ⊢
  intro v hv
  unfold removeItems at hv
  split at hv
  · exact hi v (List.mem_filter.1 hv).1
  · exact hi v (List.mem_filter.1 hv).1

theorem wellKeyed_removeKeys {m : Mapping} (hm : (Value.mapping m).WellKeyed) (b : Value) :
    (Value.mapping (removeKeys m b)).WellKeyed := by
  unfold removeKeys
  split
  · exact Mapping.wellKeyed_eraseAll hm _
  · exact Mapping.wellKeyed_erase hm _

theorem keepsKeys_sum : sum.KeepsKeys where
  numeric x y v h := by
    cases h
    exact Value.wellKeyed_number _
  textual s t v h := by
    cases h
    exact Value.wellKeyed_text _
  sequence items b v hi hb h := by
    cases h
    exact wellKeyed_appendValue hi hb
  mapping m b v hm hb h := by
    cases b with
    | mapping n =>
      cases h
      exact Mapping.wellKeyed_merge hm ((Value.wellKeyed_mapping n).1 hb).2
    | number | boolean | text | sequence => cases h

theorem keepsKeys_difference : difference.KeepsKeys where
  numeric x y v h := by
    cases h
    exact Value.wellKeyed_number _
  textual s t v h := by
    cases h
    exact Value.wellKeyed_boolean _
  sequence items b v hi _ h := by
    cases h
    exact wellKeyed_removeItems hi b
  mapping m b v hm _ h := by
    cases h
    exact wellKeyed_removeKeys hm b

end Operator

/-! ## Elements -/

namespace Value

variable {operator : String} {container : Value}

theorem wellKeyed_element (hc : container.WellKeyed) (index : Value) :
    Outcome.WellKeyed (container.element operator index) := by
  cases container with
  | number x => exact Outcome.wellKeyed_error _
  | boolean b => exact Outcome.wellKeyed_error _
  | text s =>
    refine Outcome.wellKeyed_bind fun i _ => ?_
    intro v hv
    obtain ⟨c, -, rfl⟩ := Option.map_eq_some_iff.1 (Except.ok.inj hv)
    exact wellKeyed_text _
  | sequence items =>
    refine Outcome.wellKeyed_bind fun i _ => ?_
    intro v hv
    exact (wellKeyed_sequence items).1 hc v (List.mem_of_getElem? (Except.ok.inj hv))
  | mapping m =>
    intro v hv
    exact Mapping.wellKeyed_of_get? hc (Except.ok.inj hv)

theorem wellKeyed_elements {indices vs : List Value} (hc : container.WellKeyed)
    (h : container.elements operator indices = .ok vs) : (sequence vs).WellKeyed := by
  rw [wellKeyed_sequence]
  intro v hv
  obtain ⟨index, -, hi⟩ := exists_left_of_mem (elements_eq_ok_iff.1 h) hv
  exact wellKeyed_element hc index v hi

theorem wellKeyed_access (hc : container.WellKeyed) (index : Value) :
    Outcome.WellKeyed (container.access operator index) := by
  unfold access
  split
  · split
    · refine Outcome.wellKeyed_bind fun vs hvs => ?_
      exact Outcome.wellKeyed_some (wellKeyed_elements hc hvs)
    · exact wellKeyed_element hc index
  · exact Outcome.wellKeyed_error _

end Value

/-! ## The language -/

theorem Operator.keepsKeys_elementAccess (symbol : String) : (elementAccess symbol).KeepsKeys :=
  keepsKeys_binary fun _ b ha _ => Value.wellKeyed_access ha b

theorem Operator.keepsKeys_of_mem {op : Operator} (h : op ∈ builtins.operators) :
    op.KeepsKeys := by
  suffices all : ∀ op ∈ builtinOperators, op.KeepsKeys from all op (Catalog.mem_of_mem_ofList h)
  simp only [builtinOperators, List.forall_mem_cons, List.not_mem_nil, false_imp_iff,
    implies_true, and_true]
  -- One proof for each operator, in the order of the list.
  exact ⟨keepsKeys_arithmetic _ keepsKeys_sum, keepsKeys_arithmetic _ keepsKeys_difference,
    keepsKeys_calculation _ _, keepsKeys_calculation _ _, keepsKeys_calculation _ _,
    keepsKeys_calculation _ _, keepsKeys_negation,
    keepsKeys_relation _ _, keepsKeys_relation _ _, keepsKeys_relation _ _, keepsKeys_relation _ _,
    keepsKeys_ordering _ _, keepsKeys_ordering _ _, keepsKeys_ordering _ _, keepsKeys_ordering _ _,
    keepsKeys_logicalNot _, keepsKeys_logicalNot _,
    keepsKeys_connective _ _ _, keepsKeys_connective _ _ _, keepsKeys_connective _ _ _,
    keepsKeys_connective _ _ _, keepsKeys_connective _ _ _,
    keepsKeys_needleFirst _, keepsKeys_haystackFirst _,
    keepsKeys_elementAccess _, keepsKeys_elementAccess _, keepsKeys_resolve, keepsKeys_existence⟩

theorem wellKeyed_apply {σ : Type} [Scope σ] {scope : σ} {symbol : String}
    {operands : List Value} (hs : (Scope.lookup scope).WellKeyed)
    (ho : ∀ a ∈ operands, a.WellKeyed) :
    Outcome.WellKeyed (apply symbol operands scope) := by
  unfold apply Catalog.apply
  split
  · next op hop =>
    exact Operator.keepsKeys_of_mem (Catalog.mem_of_find? hop) _ _ hs ho
  · exact Outcome.wellKeyed_error _

end Formula
