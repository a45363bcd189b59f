import Formula.Proofs.Number.NaturalText
import Formula.Proofs.Operator.Faults
import Formula.Proofs.Text.Cut
/-!
# Numbers and their texts as operands

The text of a finite number reads back as this number, and blanks around it do not matter. An operator
that sees its operands only as numbers therefore answers alike when a number is replaced by its text,
and likewise when a truth value is replaced by one or zero. The texts of the other numbers are no
numerals.

Results:
* `asNumber_padded`, `asNumber_padded_of_not_isFinite`: texts of numbers, between blanks, as numbers.
* `Restates.asNumber_eq`: operands that stand for the same number.
* `readsNumbers_of_mem`: which operators see their operands only as numbers.
* `number_texts_as_operands`: all of it, for the operators of the language.
-/
namespace Formula

open Number (isFinite isBlank_of_isNumeralChar Numeral)

/-! ## Texts of numbers -/

variable {x : Float} {before after operator : String}

theorem trim_padded (hbefore : IsBlankText before) (hafter : IsBlankText after) {s : String}
    (hs : ∀ c ∈ s.toList, isBlank c = false) (hne : s.toList ≠ []) :
    trim (before ++ s ++ after).toList = s.toList := by
  rw [String.toList_append, String.toList_append]
  exact trim_append hbefore hafter hs hne

/-- The text of a finite number is read as this number, also between blanks. -/
theorem asNumber_padded (hx : isFinite x = true) (hbefore : IsBlankText before)
    (hafter : IsBlankText after) :
    (Value.text (before ++ (Value.number x).toText ++ after)).asNumber operator = .ok x := by
  obtain ⟨n, hread, hn⟩ := numberLayout.exists_read?_write (.inr rfl) hx
  have hne : numberLayout.write x ≠ [] := by
    intro h
    rw [h] at hread
    cases hread
  have htrim : trim (before ++ (Value.number x).toText ++ after).toList = numberLayout.write x := by
    rw [← numberChars_eq_write, ← Value.toList_toText_number] at hread hne ⊢
    exact trim_padded hbefore hafter
      (fun c hc => isBlank_of_isNumeralChar
        ((Numeral.read?_eq_some_iff.1 hread).isNumeralChar c hc)) hne
  have hvalue : numberOfText? (before ++ (Value.number x).toText ++ after) = some x := by
    rw [numberOfText?, htrim, hread, Option.map_some, hn]
  rw [Value.asNumber, hvalue]

/-- The text of a number that is not finite is no number. -/
theorem asNumber_padded_of_not_isFinite (hx : isFinite x = false) (hbefore : IsBlankText before)
    (hafter : IsBlankText after) :
    (Value.text (before ++ (Value.number x).toText ++ after)).asNumber operator =
      .error (.unreadableNumber operator (before ++ (Value.number x).toText ++ after)) := by
  have hnames : ∀ cs ∈ ["NaN".toList, "Infinity".toList, "-Infinity".toList],
      cs ≠ [] ∧ cs.any isBlank = false ∧ Numeral.read? cs = none := by
    decide
  obtain ⟨hne, hblank, hread⟩ := hnames _ (Number.write_of_not_isFinite numberLayout hx)
  simp only [List.any_eq_false, Bool.not_eq_true] at hblank
  have htrim : trim (before ++ (Value.number x).toText ++ after).toList = numberLayout.write x := by
    rw [← numberChars_eq_write, ← Value.toList_toText_number] at hblank hne ⊢
    exact trim_padded hbefore hafter hblank hne
  have hvalue : numberOfText? (before ++ (Value.number x).toText ++ after) = none := by
    rw [numberOfText?, htrim, hread, Option.map_none]
  rw [Value.asNumber, hvalue]

/-! ## Operands that stand for the same number -/

/-- The second operand says otherwise which number the first one is, or is the same. -/
inductive Restates : Value → Value → Prop where
  | unchanged (v : Value) : Restates v v
  | text {x : Float} {before after : String} (hx : isFinite x = true)
    (hbefore : IsBlankText before) (hafter : IsBlankText after) :
    Restates (.number x) (.text (before ++ (Value.number x).toText ++ after))
  | number (b : Bool) : Restates (.boolean b) (.number (if b then 1.0 else 0.0))

theorem Restates.asNumber_eq {v w : Value} (h : Restates v w) (operator : String) :
    v.asNumber operator = w.asNumber operator := by
  cases h with
  | unchanged => rfl
  | text hx hbefore hafter => exact (asNumber_padded hx hbefore hafter).symm
  | number b => cases b <;> rfl

namespace Operator

variable {op : Operator} {s : Signature}

/-- The outcome depends on nothing but the numbers that the operands stand for. -/
def ReadsNumbers (op : Operator) : Prop :=
  ∀ lookup {operands operands' : List Value},
    List.Forall₂ (fun v w => v.asNumber op.symbol = w.asNumber op.symbol) operands operands' →
    (op.evaluate lookup operands).1 = (op.evaluate lookup operands').1

theorem readsNumbers_numeric (f : Float → Float → Value) : (numeric s f).ReadsNumbers := by
  intro lookup operands operands' h
  cases h with
  | nil => rfl
  | cons ha h =>
    cases h with
    | nil => rfl
    | cons hb _ =>
      rw [numeric, binary_cons, binary_cons]
      change Value.asNumber s.symbol _ = _ at ha
      change Value.asNumber s.symbol _ = _ at hb
      rw [ha, hb]
      rfl

theorem readsNumbers_negation : negation.ReadsNumbers := by
  intro lookup operands operands' h
  cases h with
  | nil => rfl
  | cons ha _ =>
    rw [negation, unary_cons, unary_cons]
    change Value.asNumber negationSignature.symbol _ = _ at ha
    rw [ha]
    rfl

theorem readsNumbers_of_mem (h : op ∈ builtinOperators) (hkey : op.key ∈ Regime.numeric.keys) :
    op.ReadsNumbers := by
  revert op
  simp only [builtinOperators, List.forall_mem_cons, List.not_mem_nil, false_imp_iff,
    implies_true, and_true]
  have other {op : Operator} (h : op.key ∉ Regime.numeric.keys) :
      op.key ∈ Regime.numeric.keys → op.ReadsNumbers := fun h' => absurd h' h
  have binary (s : Signature) (f : Float → Float → Value) :
      (numeric s f).key ∈ Regime.numeric.keys → (numeric s f).ReadsNumbers :=
    fun _ => readsNumbers_numeric f
  exact ⟨other (by decide), other (by decide), binary _ _, binary _ _, binary _ _, binary _ _,
    fun _ => readsNumbers_negation, other (by decide), other (by decide), other (by decide),
    other (by decide), binary _ _, binary _ _, binary _ _, binary _ _, other (by decide),
    other (by decide), other (by decide), other (by decide), other (by decide), other (by decide),
    other (by decide), other (by decide), other (by decide), other (by decide), other (by decide),
    other (by decide), other (by decide)⟩

end Operator

def numericSymbols : List String := ["*", "/", "%", "^", "<", ">", "<=", ">=", "-"]

theorem apply_restated {σ : Type} [Scope σ] (scope : σ) {symbol : String}
    (hsymbol : symbol ∈ numericSymbols) {operands operands' : List Value}
    (hlength : symbol = "-" → operands.length ≠ 2) (h : List.Forall₂ Restates operands operands') :
    apply symbol operands scope = apply symbol operands' scope := by
  have hkeys : ∀ key ∈ builtinOperators.map Operator.key, key.1 ∈ numericSymbols →
      key ≠ ("-", 2) → key ∈ Regime.numeric.keys := by
    decide
  unfold apply
  cases hfind : builtins.find? symbol operands.length with
  | none =>
    rw [Catalog.apply_of_find?_eq_none hfind,
      Catalog.apply_of_find?_eq_none (h.length_eq ▸ hfind), h.length_eq]
  | some op =>
    obtain ⟨hop, hkey⟩ := find?_builtins.1 hfind
    have hne : op.key ≠ ("-", 2) := by
      rw [hkey]
      intro heq
      obtain ⟨hminus, htwo⟩ := Prod.mk.inj heq
      exact hlength hminus htwo
    have hreads := Operator.readsNumbers_of_mem hop
      (hkeys _ (List.mem_map_of_mem hop) (by rw [hkey]; exact hsymbol) hne)
    rw [Catalog.apply_of_find?_eq_some hfind,
      Catalog.apply_of_find?_eq_some (h.length_eq ▸ hfind)]
    exact hreads _ (h.imp fun _ _ hvw => hvw.asNumber_eq _)

/-- **Numbers and their texts.** A finite number has a text that reads back as the same double, between
any blanks; the texts of the other numbers are rejected. So an operator on numbers does the same with a
number as with its text, and with a truth value as with one or zero, whatever its other operands are.
And every number equals its text. -/
theorem number_texts_as_operands {σ : Type} [Scope σ] (scope : σ) :
    (∀ operator x before after, isFinite x = true → IsBlankText before → IsBlankText after →
      (Value.text (before ++ (Value.number x).toText ++ after)).asNumber operator = .ok x) ∧
    (∀ operator x before after, isFinite x = false → IsBlankText before → IsBlankText after →
      (Value.text (before ++ (Value.number x).toText ++ after)).asNumber operator =
        .error (.unreadableNumber operator (before ++ (Value.number x).toText ++ after))) ∧
    (∀ symbol ∈ numericSymbols, ∀ operands operands',
      (symbol = "-" → operands.length ≠ 2) → List.Forall₂ Restates operands operands' →
      apply symbol operands scope = apply symbol operands' scope) ∧
    (∀ x, apply "==" [.number x, .text (Value.number x).toText] scope = .ok (some (.boolean true)) ∧
      apply "==" [.text (Value.number x).toText, .number x] scope = .ok (some (.boolean true))) := by
  refine ⟨?_, ?_, ?_, ?_⟩
  · intro operator x before after hx hbefore hafter
    exact asNumber_padded hx hbefore hafter
  · intro operator x before after hx hbefore hafter
    exact asNumber_padded_of_not_isFinite hx hbefore hafter
  · intro symbol hsymbol operands operands' hlength h
    exact apply_restated scope hsymbol hlength h
  · intro x
    have hequal (s : String) : (s == s) = true := beq_self_eq_true s
    refine ⟨?_, ?_⟩
    · show Except.ok (some (Value.boolean ((Value.number x).toText == (Value.text _).toText))) = _
      rw [Value.toText_text, hequal]
    · show Except.ok (some (Value.boolean ((Value.text _).toText == (Value.number x).toText))) = _
      rw [Value.toText_text, hequal]

/-- The least subnormal double under a minus sign, between blanks of three scripts, and what is reported
is the operand after it. -/
theorem number_texts_as_operands_subnormal :
    let x := Number.ofMagnitude true 1
    let padded := "\u3000\t" ++ "-5.0E-324" ++ "\u00a0"
    isFinite x = true ∧ IsBlankText "\u3000\t" ∧ IsBlankText "\u00a0" ∧
      (Value.number x).toText = "-5.0E-324" ∧
      isFinite Number.undefined = false ∧ (Value.number Number.undefined).toText = "NaN" ∧
      (Value.text padded).asNumber "*" = .ok x ∧
      (Value.text ("\u3000\t" ++ "NaN" ++ "\u00a0")).asNumber "*" =
        .error (.unreadableNumber "*" ("\u3000\t" ++ "NaN" ++ "\u00a0")) ∧
      apply "<" [.number x, .sequence []] Variables.empty =
        apply "<" [.text padded, .sequence []] Variables.empty ∧
      apply "*" [.boolean true, .number x] Variables.empty =
        apply "*" [.number 1.0, .text padded] Variables.empty ∧
      apply "==" [.text "-5.0E-324", .number x] Variables.empty = .ok (some (.boolean true)) := by
  intro x padded
  have hx : isFinite x = true := by decide +kernel
  have hbefore : IsBlankText "\u3000\t" := by decide
  have hafter : IsBlankText "\u00a0" := by decide
  have htext : (Value.number x).toText = "-5.0E-324" := by decide +kernel
  have hundefined : isFinite Number.undefined = false := by decide +kernel
  have hname : (Value.number Number.undefined).toText = "NaN" := by decide +kernel
  obtain ⟨hread, hrejected, happly, hequal⟩ := number_texts_as_operands Variables.empty
  have hrestates := Restates.text hx hbefore hafter
  have hpadded := hread "*" x _ _ hx hbefore hafter
  have hnone := hrejected "*" Number.undefined _ _ hundefined hbefore hafter
  have hself := (hequal x).2
  rw [htext] at hrestates hpadded hself
  rw [hname] at hnone
  refine ⟨hx, hbefore, hafter, htext, hundefined, hname, hpadded, hnone, ?_, ?_, hself⟩
  · exact happly "<" (by decide) _ _ (by decide) (.cons hrestates (.cons (.unchanged _) .nil))
  · exact happly "*" (by decide) _ _ (by decide) (.cons (.number true) (.cons hrestates .nil))

end Formula
