import Formula.Operator.Naming
import Formula.Proofs.Operator.Congruence
import Formula.Proofs.Value.Within
import Mathlib.Data.List.Infix
/-!
# Containment

A value is in another when its text is a part of the text of the other. The text of a collection is made
of the texts of its parts, so parts at any depth are in it, keys too; and what is added up as texts is in
the sum.

Results:
* `infix_intercalate`: each of several texts is a part of all of them with a separator between them.
* `Value.infix_of_within`: the texts of the parts of a value.
* `isIn_iff`: what the operator answers.
* `containment_is_preorder`: containment is a preorder, with parts below the whole.
-/
namespace Formula

theorem infix_intercalate {α : Type} {sep xs : List α} {xss : List (List α)} (h : xs ∈ xss) :
    xs <:+: List.intercalate sep xss := by
  induction xss with
  | nil => cases h
  | cons ys yss ih =>
    cases yss with
    | nil =>
      rw [List.intercalate_singleton, List.mem_singleton.1 h]
    | cons zs zss =>
      rw [List.intercalate_cons_cons, List.append_assoc]
      rcases List.mem_cons.1 h with rfl | h
      · exact (List.prefix_append _ _).isInfix
      · exact (ih h).trans ((List.suffix_append _ _).trans (List.suffix_append _ _)).isInfix

namespace Value

variable {v w : Value}

/-! ## The texts of parts -/

/-- What stands between brackets is a part of the whole. -/
theorem infix_brackets {cs ds : List Char} (opening closing : Char) (h : cs <:+: ds) :
    cs <:+: opening :: ds ++ [closing] :=
  (List.infix_cons h).trans (List.prefix_append _ _).isInfix

theorem infix_item {items : List Value} (h : v ∈ items) : v.chars <:+: (sequence items).chars := by
  rw [chars, itemChars_eq_map]
  exact infix_brackets _ _ (infix_intercalate (List.mem_map_of_mem h))

/-- The text of an entry is that of its key, an equals sign, and that of its value. -/
theorem infix_entry {es : Mapping} {e : Value × Value} (h : e ∈ es) :
    e.1.chars ++ '=' :: e.2.chars <:+: (mapping es).chars := by
  rw [chars, entryChars_eq_map]
  exact infix_brackets _ _ (infix_intercalate
    (List.mem_map_of_mem (f := fun e : Value × Value => e.1.chars ++ '=' :: e.2.chars) h))

theorem infix_of_within (h : Within w v) : w.chars <:+: v.chars := by
  induction h with
  | self => exact List.infix_rfl
  | item hv _ ih => exact ih.trans (infix_item hv)
  | key he _ ih => exact (ih.trans (List.prefix_append _ _).isInfix).trans (infix_entry he)
  | entry he _ ih =>
    exact ((ih.trans (List.suffix_cons _ _).isInfix).trans (List.suffix_append _ _).isInfix).trans
      (infix_entry he)

/-- To be a part of a text, in terms of texts. -/
theorem infix_chars_iff : w.chars <:+: v.chars ↔ ∃ p s : String, v.toText = p ++ w.toText ++ s := by
  simp only [toText, ← String.toList_inj, String.toList_append, String.toList_ofList]
  constructor
  · rintro ⟨p, s, h⟩
    exact ⟨String.ofList p, String.ofList s, by simp [h]⟩
  · rintro ⟨p, s, h⟩
    exact ⟨p.toList, s.toList, h.symm⟩

end Value

/-! ## The operators -/

/-- Operands that are added as texts. -/
theorem Combination.of_eq_texts {a b : Value} {s t : String} (h : of a b = .texts s t) :
    s = a.toText ∧ t = b.toText := by
  unfold of at h
  split at h
  · cases h
  · split at h
    · cases h
    · cases h
    · cases h
      exact ⟨rfl, rfl⟩

section Operators

variable {σ : Type} [Scope σ] (scope : σ) (a b : Value)

/-- The operator `IN` answers that the left operand is in the right one. -/
def IsIn : Prop := apply "IN" [a, b] scope = .ok (some (.boolean true))

theorem apply_needleFirst :
    apply "IN" [a, b] scope = .ok (some (.boolean (occursIn a.chars b.chars))) := rfl

theorem apply_haystackFirst :
    apply "CONTAINS" [b, a] scope = .ok (some (.boolean (occursIn a.chars b.chars))) := rfl

theorem isIn_iff : IsIn scope a b ↔ a.chars <:+: b.chars := by
  rw [IsIn, apply_needleFirst, ← occursIn_iff]
  simp

end Operators

/-- **Containment is the preorder of parts of texts.** One value is in another when the text of the
other is some text, then the text of the one, and then some text, and `CONTAINS` answers the same the
other way around. Every value is in itself, also the undefined number; what is in a value that is in a
third one is in the third; and two values that are in each other have the same text. A collection has
its items, keys and values in it, and what is in those at any depth. A sum of texts has both operands in
it. -/
theorem containment_is_preorder {σ : Type} [Scope σ] (scope : σ) :
    (∀ a b : Value, ∃ answer : Bool,
      apply "IN" [a, b] scope = .ok (some (.boolean answer)) ∧
      apply "CONTAINS" [b, a] scope = .ok (some (.boolean answer)) ∧
      (answer = true ↔ ∃ p s : String, b.toText = p ++ a.toText ++ s)) ∧
    (∀ a, IsIn scope a a) ∧
    (∀ a b c, IsIn scope a b → IsIn scope b c → IsIn scope a c) ∧
    (∀ a b, IsIn scope a b ∧ IsIn scope b a ↔ a.toText = b.toText) ∧
    (∀ w v, Value.Within w v → IsIn scope w v) ∧
    (∀ a b s t, Combination.of a b = .texts s t →
      ∃ sum, apply "+" [a, b] scope = .ok (some sum) ∧ IsIn scope a sum ∧ IsIn scope b sum) := by
  simp only [isIn_iff]
  refine ⟨?_, fun a => List.infix_rfl, fun a b c hab hbc => hab.trans hbc, ?_,
    fun w v h => Value.infix_of_within h, ?_⟩
  · intro a b
    refine ⟨_, apply_needleFirst scope a b, apply_haystackFirst scope a b, ?_⟩
    rw [occursIn_iff, Value.infix_chars_iff]
  · intro a b
    rw [Value.toText, Value.toText, String.ofList_inj]
    constructor
    · rintro ⟨hab, hba⟩
      exact List.infix_antisymm hab hba
    · intro h
      rw [h]
      exact ⟨List.infix_rfl, List.infix_rfl⟩
  · intro a b s t h
    obtain ⟨rfl, rfl⟩ := Combination.of_eq_texts h
    refine ⟨.text (a.toText ++ b.toText), ?_, ?_⟩
    · rw [apply_addition, Arithmetic.apply, h]
      rfl
    · simp only [Value.chars, Value.toText, String.toList_append, String.toList_ofList]
      exact ⟨(List.prefix_append _ _).isInfix, (List.suffix_append _ _).isInfix⟩

/-- A match that overlaps a failed one; an undefined number as a key, two levels down; and a sum that
begins with it. -/
theorem containment_is_preorder_nested :
    let undefined : Value := .number Number.undefined
    let m : Mapping := [(undefined, .text "aaab"), (.text "k", .sequence [])]
    let c : Value := .sequence [.boolean true, .mapping m]
    IsIn Variables.empty (.text "aab") (.text "aaab") ∧ IsIn Variables.empty (.text "aab") c ∧
      apply "CONTAINS" [c, undefined] Variables.empty = .ok (some (.boolean true)) ∧
      apply "CONTAINS" [undefined, c] Variables.empty = .ok (some (.boolean false)) ∧
      IsIn Variables.empty undefined undefined ∧
      ∃ sum, apply "+" [undefined, c] Variables.empty = .ok (some sum) ∧
        IsIn Variables.empty (.mapping m) sum := by
  intro undefined m c
  obtain ⟨hanswer, hself, htrans, -, hwithin, hsum⟩ := containment_is_preorder Variables.empty
  have hm : Value.Within (.mapping m) c := .item (by simp) (.self _)
  have hfirst : (undefined, Value.text "aaab") ∈ m := List.mem_cons_self
  have hkey : Value.Within undefined (.mapping m) := .key hfirst (.self undefined)
  have hentry : Value.Within (.text "aaab") (.mapping m) := .entry hfirst (.self _)
  have hshort : IsIn Variables.empty (.text "aab") (.text "aaab") := rfl
  obtain ⟨answer, hin, hcontains, -⟩ := hanswer undefined c
  obtain rfl : answer = true := by
    have h := hin.symm.trans (hwithin _ _ (hkey.trans hm))
    simpa using h
  obtain ⟨sum, hadd, -, hright⟩ := hsum undefined c _ _ rfl
  exact ⟨hshort, htrans _ _ _ hshort (hwithin _ _ (hentry.trans hm)), hcontains, rfl, hself undefined,
    sum, hadd, htrans _ _ _ (hwithin _ _ hm) hright⟩

end Formula
