import Formula.Proofs.Number.Order
import Formula.Proofs.Number.Text
import Formula.Proofs.Text.Cut
import Formula.Value.Text
/-!
# The text of a number as one layout

The text of a number is put together from two others: one with a point for numbers of middle size, and
for the rest one with an exponent, which is cut before the exponent and respelled. It is the text of a
single layout.

Results:
* `respell_scientificDigits`: what cutting and respelling comes to.
* `numberChars_eq_write`: the text of a number in one layout.
-/
namespace Formula

open Number (parts IsDigits signText)

/-- Plain from `0.001` up to below `10000000.0`, else as in `1.0E7` and `2.5E-4`; of two nearest
shortest decimals the greater. -/
def numberLayout : Number.Layout where
  least := 1e-3
  limit := 1e7
  tie := .upward
  mark := 'E'
  plus := false
  point := true

/-! ## Respelling -/

/-- A text is cut before its exponent, and gets a point unless it has one. -/
theorem respell_append {mantissa : List Char} (h : 'e' ∉ mantissa) (exponent : List Char) :
    respell (mantissa ++ 'e' :: exponent) =
      mantissa ++ ((if '.' ∈ mantissa then [] else ['.', '0']) ++ 'E' :: exponent) := by
  have hmantissa : ∀ c ∈ mantissa, decide (c ≠ 'e') = true := by
    intro c hc
    exact decide_eq_true fun heq => h (heq ▸ hc)
  have hcut : (mantissa ++ 'e' :: exponent).takeWhile (· ≠ 'e') = mantissa ∧
      (mantissa ++ 'e' :: exponent).dropWhile (· ≠ 'e') = 'e' :: exponent :=
    takeWhile_append_of_boundary hmantissa (by simp)
  unfold respell
  rw [hcut.1, hcut.2]
  by_cases hpoint : '.' ∈ mantissa <;> simp [hpoint]

theorem respell_scientificDigits {ds : List Char} (hds : IsDigits ds) (negative : Bool) (e : Int) :
    respell (signText negative ++ exponentLayout.scientificDigits ds e) =
      signText negative ++ numberLayout.scientificDigits ds e := by
  have hsign : 'e' ∉ signText negative ∧ '.' ∉ signText negative := by
    cases negative <;> decide
  have hdigits : 'e' ∉ ds ∧ '.' ∉ ds :=
    ⟨fun h => absurd (hds.isDigit _ h) (by decide), fun h => absurd (hds.isDigit _ h) (by decide)⟩
  obtain ⟨d, rest, rfl⟩ := List.exists_cons_of_ne_nil hds.ne_nil
  -- There is a point before the exponent when there are two digits or more.
  cases rest with
  | nil =>
    obtain ⟨tail, hexponent, hnumber⟩ : ∃ tail,
        exponentLayout.scientificDigits [d] e = [d] ++ 'e' :: tail ∧
        numberLayout.scientificDigits [d] e = [d] ++ (['.', '0'] ++ 'E' :: tail) :=
      ⟨_, rfl, rfl⟩
    have hmark : 'e' ∉ signText negative ++ [d] := by
      rw [List.mem_append, not_or]
      exact ⟨hsign.1, hdigits.1⟩
    have hpoint : '.' ∉ signText negative ++ [d] := by
      rw [List.mem_append, not_or]
      exact ⟨hsign.2, hdigits.2⟩
    rw [hexponent, hnumber, ← List.append_assoc, respell_append hmark, if_neg hpoint,
      List.append_assoc]
  | cons d' rest =>
    obtain ⟨tail, hexponent, hnumber⟩ : ∃ tail,
        exponentLayout.scientificDigits (d :: d' :: rest) e = (d :: '.' :: d' :: rest) ++ 'e' :: tail ∧
        numberLayout.scientificDigits (d :: d' :: rest) e = (d :: '.' :: d' :: rest) ++ 'E' :: tail :=
      ⟨_, rfl, rfl⟩
    have hmark : 'e' ∉ signText negative ++ d :: '.' :: d' :: rest := by
      simpa [hsign.1] using hdigits.1
    have hpoint : '.' ∈ signText negative ++ d :: '.' :: d' :: rest := by
      simp
    rw [hexponent, hnumber, ← List.append_assoc, respell_append hmark, if_pos hpoint,
      List.nil_append, List.append_assoc]

/-! ## Which spelling -/

section Finite

variable {x : Float} {negative : Bool} {m : Nat} {q : Int}

/-- The bounds of a layout, as numbers. -/
theorem isPlain_iff_of_parts {l : Number.Layout} {a b : Nat} {e f : Int}
    (hleast : parts l.least = .finite false a e) (hlimit : parts l.limit = .finite false b f)
    (h : parts x = .finite negative m q) : l.isPlain x = true ↔
      (a * 2 ^ e : ℚ) ≤ m * 2 ^ q ∧ (m * 2 ^ q : ℚ) < b * 2 ^ f := by
  have habs : parts x.abs = .finite false m q := by
    rw [Number.parts_abs (by rw [h]; exact Number.Parts.noConfusion), h]
    rfl
  rw [Number.Layout.isPlain, Bool.and_eq_true, decide_eq_true_eq, decide_eq_true_eq,
    Number.le_iff_of_parts hleast habs, Number.lt_iff_of_parts habs hlimit]

theorem isPlain_numberLayout_iff (h : parts x = .finite negative m q) :
    numberLayout.isPlain x = true ↔ (4611686018427388 * 2 ^ (-62 : ℤ) : ℚ) ≤ m * 2 ^ q ∧
      (m * 2 ^ q : ℚ) < 5368709120000000 * 2 ^ (-29 : ℤ) := by
  have hleast : parts 1e-3 = .finite false 4611686018427388 (-62) := by decide +kernel
  have hlimit : parts 1e7 = .finite false 5368709120000000 (-29) := by decide +kernel
  exact_mod_cast isPlain_iff_of_parts (l := numberLayout) hleast hlimit h

/-- Numbers written without an exponent are within the bounds of the layout with a point. -/
theorem isPlain_pointLayout (h : parts x = .finite negative m q)
    (hplain : numberLayout.isPlain x = true) : pointLayout.isPlain x = true := by
  have hleast : parts 1e-4 = .finite false 7378697629483821 (-66) := by decide +kernel
  have hlimit : parts 1e16 = .finite false 5000000000000000 1 := by decide +kernel
  obtain ⟨hge, hlt⟩ := (isPlain_numberLayout_iff h).1 hplain
  refine (isPlain_iff_of_parts (l := pointLayout) hleast hlimit h).2 ⟨?_, ?_⟩
  · refine le_trans ?_ hge
    norm_num
  · refine lt_trans hlt ?_
    norm_num

theorem isPlain_exponentLayout (h : parts x = .finite negative m q) :
    exponentLayout.isPlain x = false := by
  have hzero : parts 0 = .finite false 0 (-1074) := by decide +kernel
  have hnone : ¬ exponentLayout.isPlain x = true := by
    rw [isPlain_iff_of_parts (l := exponentLayout) hzero hzero h]
    rintro ⟨-, hlt⟩
    have hnonneg : (0 : ℚ) ≤ m * 2 ^ q := by positivity
    rw [Nat.cast_zero, zero_mul] at hlt
    exact absurd hlt (not_lt.2 hnonneg)
  exact Bool.eq_false_iff.2 hnone

/-- Without an exponent the rule for ties is all that matters of a layout. -/
theorem unsignedText_true {l l' : Number.Layout} (h : l.tie = l'.tie) :
    l.unsignedText true m q = l'.unsignedText true m q := by
  simp only [Number.Layout.unsignedText, h, if_true]

theorem beq_zero_iff (h : parts x = .finite negative m q) : (x == 0) = true ↔ m = 0 := by
  have hzero : parts 0 = .finite false 0 Number.leastExponent := by decide +kernel
  rw [Number.beq_iff_same, h, hzero]
  constructor
  · exact And.left
  · rintro rfl
    exact ⟨rfl, (Number.parts_eq_finite h).2.2.2.1 rfl, .inr rfl⟩

end Finite

/-! ## The text -/

/-- The text of a number is the one in a single layout. -/
theorem numberChars_eq_write (x : Float) : numberChars x = numberLayout.write x := by
  unfold numberChars
  cases h : parts x with
  | undefined =>
    rw [if_pos ((Number.parts_eq_undefined_iff x).1 h), Number.Layout.write, h]
  | infinite negative =>
    rw [Number.eq_of_parts_infinite h]
    cases negative <;> decide +kernel
  | finite negative m q =>
    have hfinite : Number.magnitude x < Number.infinity := (Number.parts_eq_finite h).2.2.1
    have hdefined : Number.isUndefined x = false := by
      rw [Number.isUndefined, decide_eq_false_iff_not]
      omega
    have hbounded : Number.isInfinite x = false := by
      rw [Number.isInfinite, beq_eq_false_iff_ne]
      omega
    rw [hdefined, if_neg Bool.false_ne_true, hbounded, if_neg Bool.false_ne_true,
      numberLayout.write_of_finite h]
    by_cases hm : m = 0
    · have hzero := (beq_zero_iff h).2 hm
      rw [hzero, Bool.true_or, if_pos rfl, pointLayout.write_of_finite h]
      simp [Number.Layout.unsignedText, hm]
    have hzero : (x == 0) = false := Bool.eq_false_iff.2 fun hz => hm ((beq_zero_iff h).1 hz)
    have hbounds : (decide (1e-3 ≤ x.abs) && decide (x.abs < 1e7)) = numberLayout.isPlain x := rfl
    rw [hzero, Bool.false_or, hbounds]
    by_cases hplain : numberLayout.isPlain x = true
    · rw [if_pos hplain, pointLayout.write_of_finite h, isPlain_pointLayout h hplain, hplain,
        unsignedText_true (show pointLayout.tie = numberLayout.tie from rfl)]
    · rw [if_neg hplain, exponentLayout.write_of_finite h, isPlain_exponentLayout h,
        Bool.eq_false_iff.2 hplain]
      unfold Number.Layout.unsignedText
      rw [if_neg hm, if_neg hm]
      exact respell_scientificDigits (Number.isDigits_toDigits _) negative _

end Formula
