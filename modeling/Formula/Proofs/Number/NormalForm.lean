import Formula.Proofs.Number.Digits
import Formula.Proofs.Number.Fewest
import Formula.Proofs.Number.NaturalText
/-!
# The normal form of number texts

A finite number is written in one of two forms: with nothing but a point among its digits when it is zero
or neither too small nor too large for that, and else with one digit before the point and an exponent. In
both forms the point has digits on either side, and there is no zero that could be left out. The digits
are as few as any literal needs that is read as the number.

Results:
* `isPlain_iff`: which numbers are written without an exponent.
* `isPlainForm_plainDigits`, `isScientificForm_scientificDigits`: the forms of the two spellings.
* `length_significant_le_of_rounds`: no literal that is read as the number has fewer significant digits.
* `number_texts_normal`: all of it, for the texts of numbers.
-/
namespace Formula

open Number (Numeral IsDigits IsLiteral Rounds signText isNegative value? parts)

/-! ## The two forms -/

/-- The digits before a point: a zero comes first only when it is alone. -/
structure IsWhole (ds : List Char) : Prop extends IsDigits ds where
  head : ds.head? = some '0' → ds = ['0']

/-- The digits after a point: a zero comes last only when it is alone. -/
structure IsFraction (ds : List Char) : Prop extends IsDigits ds where
  last : ds.getLast? = some '0' → ds = ['0']

/-- Digits with a point among them. -/
inductive IsPlainForm : List Char → Prop where
  | mk {whole fraction} : IsWhole whole → IsFraction fraction →
    IsPlainForm (whole ++ '.' :: fraction)

/-- One digit before the point, and an exponent without `+` and without a leading zero. -/
inductive IsScientificForm : List Char → Prop where
  | mk {d fraction minus exponent} : d.isDigit = true → d ≠ '0' → IsFraction fraction →
    minus = [] ∨ minus = ['-'] → IsDigits exponent → exponent.head? ≠ some '0' →
    IsScientificForm (d :: '.' :: (fraction ++ 'E' :: (minus ++ exponent)))

theorem isFraction_zero : IsFraction ['0'] := ⟨Number.isDigits_zero, fun _ => rfl⟩

theorem isPlainForm_zero : IsPlainForm ['0', '.', '0'] :=
  .mk ⟨Number.isDigits_zero, fun _ => rfl⟩ isFraction_zero

/-! ## Where the point stands -/

section Spelling

variable {ds : List Char} {e : Int}

/-- The digits of a decimal that begins and ends with none but significant digits. -/
structure IsSignificant (ds : List Char) : Prop extends IsDigits ds where
  head : ds.head? ≠ some '0'
  last : ds.getLast? ≠ some '0'

theorem isSignificant_toDigits {n : Nat} (hn : ¬ 10 ∣ n) : IsSignificant (Nat.toDigits 10 n) where
  toIsDigits := Number.isDigits_toDigits n
  head := Number.head?_toDigits (Nat.pos_of_ne_zero fun h => hn (h ▸ Nat.dvd_zero 10))
  last := Number.getLast?_toDigits hn

theorem IsSignificant.isFraction_append (h : IsSignificant ds) {zeros : List Char}
    (hzeros : ∀ c ∈ zeros, c.isDigit = true) : IsFraction (zeros ++ ds) where
  ne_nil := List.append_ne_nil_of_right_ne_nil _ h.ne_nil
  isDigit := List.forall_mem_append.2 ⟨hzeros, h.isDigit⟩
  last hlast := by
    rw [List.getLast?_append_of_ne_nil _ h.ne_nil] at hlast
    exact absurd hlast h.last

theorem IsSignificant.isWhole_append (h : IsSignificant ds) {zeros : List Char}
    (hzeros : ∀ c ∈ zeros, c.isDigit = true) : IsWhole (ds ++ zeros) where
  ne_nil := List.append_ne_nil_of_left_ne_nil h.ne_nil _
  isDigit := List.forall_mem_append.2 ⟨h.isDigit, hzeros⟩
  head hhead := by
    rw [List.head?_append_of_ne_nil _ h.ne_nil] at hhead
    exact absurd hhead h.head

/-- A point between significant digits leaves no zero at either end. -/
theorem IsSignificant.split {whole fraction : List Char} (h : IsSignificant (whole ++ fraction))
    (hwhole : whole ≠ []) (hfraction : fraction ≠ []) : IsWhole whole ∧ IsFraction fraction := by
  obtain ⟨⟨-, hdigits⟩, hhead, hlast⟩ := h
  obtain ⟨hw, hf⟩ := List.forall_mem_append.1 hdigits
  rw [List.head?_append_of_ne_nil _ hwhole] at hhead
  rw [List.getLast?_append_of_ne_nil _ hfraction] at hlast
  exact ⟨⟨⟨hwhole, hw⟩, fun h => absurd h hhead⟩, ⟨⟨hfraction, hf⟩, fun h => absurd h hlast⟩⟩

theorem isPlainForm_plainDigits (h : IsSignificant ds) (e : Int) :
    IsPlainForm (Number.plainDigits ds e) := by
  have hlength := List.length_pos_iff.2 h.ne_nil
  unfold Number.plainDigits
  dsimp only
  split
  · exact .mk (h.isWhole_append Number.isDigit_of_mem_zeros) isFraction_zero
  split
  · rename_i he hwhole
    have hsplit : IsSignificant (ds.take (ds.length + e).toNat ++ ds.drop (ds.length + e).toNat) := by
      rwa [List.take_append_drop]
    obtain ⟨hw, hf⟩ := hsplit.split
      (by rw [← List.length_pos_iff, List.length_take]; omega)
      (by rw [← List.length_pos_iff, List.length_drop]; omega)
    exact .mk hw hf
  · exact .mk ⟨Number.isDigits_zero, fun _ => rfl⟩ (h.isFraction_append Number.isDigit_of_mem_zeros)

/-- The exponent has no superfluous zero unless it is zero itself. -/
theorem isScientificForm_scientificDigits (h : IsSignificant ds) (he : (ds.length : Int) + e ≠ 1) :
    IsScientificForm (numberLayout.scientificDigits ds e) := by
  obtain ⟨d, rest, rfl⟩ := List.exists_cons_of_ne_nil h.ne_nil
  have hdigit := h.isDigit d List.mem_cons_self
  have hne : d ≠ '0' := fun heq => h.head (congrArg some heq)
  have hexponent : Number.exponentSign false ((d :: rest).length + e - 1) = [] ∨
      Number.exponentSign false ((d :: rest).length + e - 1) = ['-'] := by
    unfold Number.exponentSign
    split
    · exact .inr rfl
    · exact .inl rfl
  have hfraction : ∃ fraction, IsFraction fraction ∧
      numberLayout.scientificDigits (d :: rest) e = d :: '.' :: (fraction ++ 'E' ::
        (Number.exponentSign false ((d :: rest).length + e - 1) ++
          Nat.toDigits 10 ((d :: rest).length + e - 1).natAbs)) := by
    cases rest with
    | nil => exact ⟨['0'], isFraction_zero, rfl⟩
    | cons c rest =>
      have hsplit : IsSignificant ([d] ++ c :: rest) := h
      exact ⟨c :: rest, (hsplit.split (List.cons_ne_nil _ _) (List.cons_ne_nil _ _)).2, rfl⟩
  obtain ⟨fraction, hfraction, htext⟩ := hfraction
  rw [htext]
  exact .mk hdigit hne hfraction hexponent (Number.isDigits_toDigits _)
    (Number.head?_toDigits (by omega))

end Spelling

/-! ## The two ranges -/

/-- Zero, and the numbers that are neither too small nor too large to be written without an exponent. -/
def PlainRange (v : ℚ) : Prop := v = 0 ∨ 1 / 1000 ≤ |v| ∧ |v| < 10 ^ 7

section Range

variable {x : Float} {negative : Bool} {m : Nat} {q : Int}

theorem plainRange_signed_iff (negative : Bool) (m : Nat) (q : Int) :
    PlainRange (Number.signed negative m q) ↔
      m = 0 ∨ (1 / 1000 : ℚ) ≤ m * 2 ^ q ∧ (m * 2 ^ q : ℚ) < 10 ^ 7 := by
  have hzero : Number.signed negative m q = 0 ↔ m = 0 := by
    rw [← abs_eq_zero, Number.abs_signed, mul_eq_zero, or_iff_left (Number.two_zpow_pos q).ne',
      Nat.cast_eq_zero]
  rw [PlainRange, hzero, Number.abs_signed]

/-- The least number that is written without an exponent is the first one from `0.001` on. -/
theorem le_iff_thousandth (h : parts x = .finite negative m q) :
    (4611686018427388 * 2 ^ (-62 : ℤ) : ℚ) ≤ m * 2 ^ q ↔ (1 / 1000 : ℚ) ≤ m * 2 ^ q := by
  have hstep : Number.Normalized 4611686018427387 (-62) := ⟨by decide, by decide, by decide, by decide⟩
  have hnext : Number.Normalized 4611686018427388 (-62) := ⟨by decide, by decide, by decide, by decide⟩
  constructor
  · intro hle
    refine le_trans ?_ hle
    norm_num
  · intro hle
    rw [← (Number.value_magnitude h).1] at hle ⊢
    have hbelow :
        Number.Magnitude.value ((-62 - Number.leastExponent).toNat * 2 ^ 52 + 4611686018427387) <
          Number.Magnitude.value (Number.magnitude x) := by
      rw [Number.Magnitude.value_index hstep]
      refine lt_of_lt_of_le ?_ hle
      norm_num
    have hindex := Number.Magnitude.strictMono_value.lt_iff_lt.1 hbelow
    have hvalue := Number.Magnitude.value_index hnext
    push_cast at hvalue
    rw [← hvalue]
    exact Number.Magnitude.strictMono_value.monotone hindex

/-- Which numbers are written without an exponent, if they are not zero. -/
theorem isPlain_iff (h : parts x = .finite negative m q) : numberLayout.isPlain x = true ↔
    (1 / 1000 : ℚ) ≤ m * 2 ^ q ∧ (m * 2 ^ q : ℚ) < 10 ^ 7 := by
  have hten : (5368709120000000 * 2 ^ (-29 : ℤ) : ℚ) = 10 ^ 7 := by norm_num
  rw [isPlain_numberLayout_iff h, hten, le_iff_thousandth h]

/-- A decimal whose leading digit is the one before the point is between one and ten. -/
theorem bounds_of_length_add_exponent {d : Nat} {k : ℤ} (hd : 0 < d)
    (hone : ((Nat.toDigits 10 d).length : ℤ) + k = 1) :
    (1 : ℚ) ≤ d * 10 ^ k ∧ (d * 10 ^ k : ℚ) < 10 := by
  have hdigits := Number.isDigits_toDigits d
  have hge := Number.pow_le_ofDigitChars hdigits (Number.head?_toDigits hd)
  have hlt := Number.ofDigitChars_lt hdigits.isDigit
  have hlength := List.length_pos_iff.2 hdigits.ne_nil
  rw [Nat.ofDigitChars_ten_toDigits] at hge hlt
  generalize (Nat.toDigits 10 d).length = len at *
  have hpower (n : Nat) : ((10 ^ n : Nat) : ℚ) * 10 ^ k = 10 ^ (n + k) := by
    rw [Nat.cast_pow, Nat.cast_ofNat, ← zpow_natCast, ← zpow_add₀ (by norm_num)]
  constructor
  · calc (1 : ℚ) = (10 ^ (len - 1) : Nat) * 10 ^ k := by
          rw [hpower, show ((len - 1 : Nat) : ℤ) + k = 0 by omega, zpow_zero]
      _ ≤ d * 10 ^ k := by
          have : ((10 ^ (len - 1) : Nat) : ℚ) ≤ d := by exact_mod_cast hge
          gcongr
  · calc (d * 10 ^ k : ℚ) < (10 ^ len : Nat) * 10 ^ k := by
          have : (d : ℚ) < (10 ^ len : Nat) := by exact_mod_cast hlt
          gcongr
      _ = 10 := by
          rw [hpower, hone, zpow_one]

/-- Outside that range the leading digit of the shortest decimal is not the one before the point. -/
theorem length_add_exponent_ne_one (tie : Number.Tie) (hm : 0 < m)
    (h : ¬ ((1 / 1000 : ℚ) ≤ m * 2 ^ q ∧ (m * 2 ^ q : ℚ) < 10 ^ 7)) :
    ((Nat.toDigits 10 (Number.Decimal.shortest tie m q).digits).length : Int) +
      (Number.Decimal.shortest tie m q).exponent ≠ 1 := by
  intro hone
  obtain ⟨hlow, hhigh⟩ := Number.bounds_of_spans hm (Number.Decimal.spans_shortest (q := q) tie hm)
  obtain ⟨hge, hlt⟩ := bounds_of_length_add_exponent (Number.Decimal.digits_pos tie hm) hone
  rw [Number.Decimal.value] at hlow hhigh
  refine h ⟨?_, ?_⟩ <;> linarith

end Range

/-! ## The texts of numbers -/

section Texts

variable {x : Float} {negative : Bool} {m : Nat} {q : Int}

/-- The text of a finite number without its sign, in the form for its size. -/
theorem form_unsignedText (h : parts x = .finite negative m q) :
    (PlainRange (Number.signed negative m q) →
      IsPlainForm (numberLayout.unsignedText (numberLayout.isPlain x) m q)) ∧
    (¬ PlainRange (Number.signed negative m q) →
      IsScientificForm (numberLayout.unsignedText (numberLayout.isPlain x) m q)) := by
  rw [plainRange_signed_iff, ← isPlain_iff h]
  unfold Number.Layout.unsignedText
  by_cases hm : m = 0
  · rw [if_pos hm]
    exact ⟨fun _ => isPlainForm_zero, fun hrange => absurd (.inl hm) hrange⟩
  have hpos := Nat.pos_of_ne_zero hm
  have hsignificant :=
    isSignificant_toDigits (Number.Decimal.not_dvd_digits (q := q) numberLayout.tie hpos)
  rw [if_neg hm, or_iff_right hm]
  by_cases hplain : numberLayout.isPlain x = true
  · rw [if_pos hplain]
    exact ⟨fun _ => isPlainForm_plainDigits hsignificant _, fun hrange => absurd hplain hrange⟩
  · rw [if_neg hplain]
    refine ⟨fun hrange => absurd hrange hplain, fun _ => ?_⟩
    refine isScientificForm_scientificDigits hsignificant ?_
    rw [isPlain_iff h] at hplain
    exact length_add_exponent_ne_one _ hpos hplain

/-- No literal that is read as the number has fewer significant digits than its shortest decimal. -/
theorem length_significant_le_of_rounds {n k : Numeral} {cs ds : List Char} {tie : Number.Tie}
    (h : parts x = .finite negative m q) (hn : IsLiteral cs n)
    (hvalue : n.value = if m = 0 then 0 else (Number.Decimal.shortest tie m q).value)
    (hk : IsLiteral ds k) (hrounds : Rounds k.negative k.value x) :
    n.significant.length ≤ k.significant.length := by
  split at hvalue
  · have hnone : n.value = (0 : Nat) * 10 ^ (0 : ℤ) := by
      rw [hvalue, Nat.cast_zero, zero_mul]
    exact (Numeral.length_significant_le hn.isDigit hnone Nat.one_pos).trans (Nat.zero_le _)
  · rename_i hm
    have hpos := Nat.pos_of_ne_zero hm
    obtain ⟨j, hj⟩ := k.exists_value_eq
    have hread : Number.ofDecimal k.negative k.digits k.scale = x :=
      (Number.rounds_ofDecimal _ _ _).unique hrounds k.value_nonneg
    have hspans := Number.spans_of_ofDecimal h hpos hread
    rw [← Numeral.value, hj] at hspans
    have hfewer := Number.ofDigitChars_lt (Numeral.isDigit_of_mem_significant hk.isDigit)
    exact Numeral.length_significant_le hn.isDigit hvalue
      (Number.Decimal.digits_lt_of_spans tie hpos hspans hfewer)

/-- Neither form begins with a sign. -/
theorem IsPlainForm.head?_ne {body : List Char} (h : IsPlainForm body) : body.head? ≠ some '-' := by
  obtain ⟨hwhole, -⟩ := h
  exact fun hhead => (hwhole.unsigned _ '-' hhead).1 rfl

theorem IsScientificForm.head?_ne {body : List Char} (h : IsScientificForm body) :
    body.head? ≠ some '-' := by
  obtain ⟨hd, -, -, -, -, -⟩ := h
  exact fun hhead => (Number.ne_sign_of_isDigit hd).1 (Option.some.inj hhead)

/-- The negative of a number is written alike, but for the sign. -/
theorem exists_write_neg (hx : parts x ≠ .undefined) : ∃ body, body.head? ≠ some '-' ∧
    numberLayout.write x = signText (isNegative x) ++ body ∧
    numberLayout.write (-x) = signText (!isNegative x) ++ body := by
  have hneg := Number.parts_neg hx
  cases h : parts x with
  | undefined => exact absurd h hx
  | infinite negative =>
    have hsign : isNegative x = negative := by
      rw [Number.eq_of_parts_infinite h, Number.isNegative_ofMagnitude le_rfl]
    rw [h] at hneg
    refine ⟨"Infinity".toList, by decide, ?_, ?_⟩
    · rw [Number.Layout.write, h, hsign]
      cases negative <;> rfl
    · rw [Number.Layout.write, hneg, hsign]
      cases negative <;> rfl
  | finite negative m q =>
    obtain ⟨hsign, -⟩ := Number.parts_eq_finite h
    rw [h] at hneg
    have hplain : numberLayout.isPlain (-x) = numberLayout.isPlain x := by
      rw [Number.Layout.isPlain, Number.abs_neg_eq hx, Number.Layout.isPlain]
    obtain ⟨hshort, hlong⟩ := form_unsignedText h
    refine ⟨numberLayout.unsignedText (numberLayout.isPlain x) m q, ?_, ?_, ?_⟩
    · by_cases hrange : PlainRange (Number.signed negative m q)
      · exact (hshort hrange).head?_ne
      · exact (hlong hrange).head?_ne
    · rw [hsign, numberLayout.write_of_finite h]
    · rw [hsign, numberLayout.write_of_finite hneg, hplain]

end Texts

/-- **The normal form of number texts.** A finite number is written with a minus sign exactly when its
sign bit is set, and then plainly or with an exponent, as its size demands. What is written is a decimal
literal that is rounded to the number, and no literal that is has fewer significant digits. Numbers of
opposite sign are written alike, but for the sign. -/
theorem number_texts_normal (x : Float) :
    (Number.isFinite x = true → ∃ v body n, value? x = some v ∧
      (Value.number x).toText.toList = signText (isNegative x) ++ body ∧
      (PlainRange v → IsPlainForm body) ∧ (¬ PlainRange v → IsScientificForm body) ∧
      IsLiteral (Value.number x).toText.toList n ∧ Rounds n.negative n.value x ∧
      ∀ cs k, IsLiteral cs k → Rounds k.negative k.value x →
        n.significant.length ≤ k.significant.length) ∧
    (Number.isUndefined x = false → ∃ body, body.head? ≠ some '-' ∧
      (Value.number x).toText.toList = signText (isNegative x) ++ body ∧
      (Value.number (-x)).toText.toList = signText (!isNegative x) ++ body) := by
  simp only [Value.toList_toText_number, numberChars_eq_write]
  refine ⟨fun hx => ?_, fun hx => exists_write_neg ?_⟩
  · obtain ⟨m, q, hparts⟩ := Number.exists_parts_eq_finite hx
    obtain ⟨n, hliteral, hnegative, hvalue⟩ := numberLayout.exists_isLiteral_write (.inr rfl) hparts
    obtain ⟨hplain, hscientific⟩ := form_unsignedText hparts
    have hread : n.toNumber = x := Number.toNumber_of_shortest (hnegative ▸ hparts) hvalue
    refine ⟨_, _, n, ?_, numberLayout.write_of_finite hparts, hplain, hscientific, hliteral, ?_, ?_⟩
    · rw [value?, hparts]
    · exact hread ▸ Number.rounds_ofDecimal _ _ _
    · intro cs k hk hrounds
      exact length_significant_le_of_rounds hparts hliteral hvalue hk hrounds
  · rw [ne_eq, Number.parts_eq_undefined_iff, hx]
    exact Bool.false_ne_true

/-- A power of ten that is no double: one significant digit is enough for the nearest one, and a zero
stands after the point. -/
theorem number_texts_normal_power :
    let x := Number.ofDecimal true 1 23
    Number.isFinite x = true ∧ Number.isUndefined x = false ∧
      (Value.number x).toText = "-1.0E23" ∧ (Value.number (-x)).toText = "1.0E23" ∧
      ∃ n, IsLiteral "-1.0E23".toList n ∧ Rounds n.negative n.value x ∧
        ∀ cs k, IsLiteral cs k → Rounds k.negative k.value x →
          n.significant.length ≤ k.significant.length := by
  intro x
  have hfinite : Number.isFinite x = true := by decide +kernel
  have hdefined : Number.isUndefined x = false := by decide +kernel
  have htext : (Value.number x).toText = "-1.0E23" := by decide +kernel
  obtain ⟨hform, hopposite⟩ := number_texts_normal x
  obtain ⟨-, -, n, -, -, -, -, hliteral, hrounds, hfewest⟩ := hform hfinite
  obtain ⟨body, -, hbody, hneg⟩ := hopposite hdefined
  have hsign : isNegative x = true := by decide +kernel
  rw [htext] at hliteral
  rw [htext, hsign] at hbody
  rw [hsign] at hneg
  obtain rfl : "1.0E23".toList = body := List.cons_injective hbody
  exact ⟨hfinite, hdefined, htext, String.toList_inj.1 hneg, n, hliteral, hrounds, hfewest⟩

end Formula
