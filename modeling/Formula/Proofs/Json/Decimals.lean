import Formula.Proofs.Json.Lexing
import Formula.Proofs.Json.Parsing
import Formula.Proofs.Json.Scaling
import Formula.Proofs.Operator.TextAsNumber
import Formula.Reading
/-!
# Decimals in documents

The decimal literals of a document are those of a text with less freedom, and so every number that is
read from a document is read from its text, too. A text is rounded once. In a document that is so for
integers of 64 bits; for other literals the digits are rounded, then the power of ten, and then their
product or quotient. Where the digits and the power are doubles themselves there is only the last
rounding, and the two readers agree; elsewhere they may yield neighbouring doubles.

Results:
* `double?_eq_some`: the digits that count, and the power that they are scaled by.
* `rounds_number?`: the doubles of literals, and the literals that are rounded once.
* `number_and_text`: the number of a document and of its text.
-/
namespace Formula.Json

open Number (Numeral Rounds Close Approximates parts isNegative value?)

/-! ## Doubles of literals -/

section Doubles

variable {n : Numeral} {x y : Float}

/-- The digits under the sign, as an integer. -/
def signedDigits (n : Numeral) : Int := if n.negative then -(n.digits : Int) else n.digits

/-- A literal that the reader of documents rounds only once: its digits are zero, or an integer of 64
bits with its sign, or its digits and the power of ten that scales them are both doubles. -/
inductive RoundedOnce (n : Numeral) : Prop where
  | zero : n.digits = 0 → RoundedOnce n
  | integer : n.fraction = [] → n.exponent = none → isWord (signedDigits n) = true → RoundedOnce n
  | scaled {a p} : n.digits < 2 ^ 64 → value? a = some (n.digits : ℚ) →
    value? p = some ((10 : ℚ) ^ n.scale.natAbs) → RoundedOnce n

/-- The double denotes the number of the literal, but for one part in `2 ^ 50` and the least double. -/
def Accurate (n : Numeral) (x : Float) : Prop :=
  ∃ u, value? x = some u ∧
    |u - Number.withSign n.negative n.value| ≤ n.value / 2 ^ 50 + 2 ^ Number.leastExponent

theorem accurate_of_parts {m : Nat} {q : Int} (h : parts x = .finite n.negative m q)
    (herror : |(m * 2 ^ q : ℚ) - n.value| ≤ n.value / 2 ^ 50 + 2 ^ Number.leastExponent) :
    Accurate n x := by
  refine ⟨Number.withSign n.negative (m * 2 ^ q), ?_, ?_⟩
  · rw [value?, h]
    rfl
  · rwa [Number.abs_withSign_sub]

/-- What is rounded once is accurate. -/
theorem accurate_of_rounds (h : Rounds n.negative n.value x) (hlt : n.value < Number.overflowBound) :
    Accurate n x := by
  have hvalue := n.value_nonneg
  have hleast := Number.two_zpow_pos Number.leastExponent
  obtain ⟨m, q, hparts, hclose | ⟨-, herror⟩⟩ := h.close_or hvalue hlt
  · have herror := (hclose.mono hvalue (by positivity) (show 1 ≤ 6 by decide)).abs_sub_le hvalue
    exact accurate_of_parts hparts (by linarith)
  · have hpart : 0 ≤ n.value / 2 ^ 50 := by positivity
    exact accurate_of_parts hparts (by linarith)

/-- What is approximated without a sign is accurate with the sign of the literal. -/
theorem accurate_of_approximates (h : Approximates 6 n.value y) :
    isNegative (if n.negative then -y else y) = n.negative ∧
      Accurate n (if n.negative then -y else y) := by
  obtain ⟨m, q, hparts, herror⟩ := h.error_le n.value_nonneg
  have hsigned : parts (if n.negative then -y else y) = .finite n.negative m q := by
    cases n.negative with
    | false => exact hparts
    | true =>
      have hneg := Number.parts_neg (x := y) (by rw [hparts]; exact Number.Parts.noConfusion)
      rw [hparts] at hneg
      exact hneg
  exact ⟨(Number.parts_eq_finite hsigned).1, accurate_of_parts hsigned herror⟩

theorem parts_significand {s : Nat} (h : s < 2 ^ 64) :
    ∃ m q, parts (Number.ofRatio false s 1) = .finite false m q ∧ Close 1 (s : ℚ) (m * 2 ^ q) ∧
      (m * 2 ^ q : ℚ) ≤ 2 ^ 65 := by
  have hrounds := Number.rounds_ofRatio false s Nat.one_pos
  rw [Nat.cast_one, div_one] at hrounds
  obtain ⟨m, q, hparts, hclose⟩ : ∃ m q, parts (Number.ofRatio false s 1) = .finite false m q ∧
      Close 1 (s : ℚ) (m * 2 ^ q) := by
    rcases Nat.eq_zero_or_pos s with rfl | hpos
    · have hzero := hrounds.underflow (by rw [Nat.cast_zero]; positivity)
      refine ⟨_, _, hzero, ?_⟩
      rw [Nat.cast_zero, zero_mul]
      exact (Close.refl 0).mono le_rfl le_rfl (by decide)
    · exact hrounds.close (by exact_mod_cast hpos) (natCast_lt_overflowBound h)
  refine ⟨m, q, hparts, hclose, ?_⟩
  have hlt : (s : ℚ) < 2 ^ 64 := by exact_mod_cast h
  have hge := hclose.ge
  rw [pow_one, Number.roundingFactor] at hge
  linarith

/-- The digits that count, and the power of ten that they are scaled by. -/
theorem double?_eq_some (hdigits : ∀ c ∈ n.whole ++ n.fraction, c.isDigit = true)
    (h : double? n = some x) : ∃ s k m q y, (n.digits < 2 ^ 64 → s = n.digits ∧ k = n.scale) ∧
      Close 1 n.value (s * 10 ^ k) ∧ parts (Number.ofRatio false s 1) = .finite false m q ∧
      Close 1 (s : ℚ) (m * 2 ^ q) ∧ Scaled (m * 2 ^ q) k y ∧
      x = if n.negative then -y else y := by
  unfold double? at h
  rcases hwhole : absorb 0 n.whole with ⟨a, surplus⟩
  rw [hwhole] at h
  dsimp only at h
  rcases hfraction : absorb a n.fraction with ⟨s, dropped⟩
  rw [hfraction] at h
  dsimp only at h
  have hclose := close_absorb hdigits hwhole hfraction
  generalize hk : n.exponent.getD 0 + (surplus.length : Int) -
    (n.fraction.length - dropped.length : Nat) = k at h hclose
  obtain ⟨y, hy, rfl⟩ := Option.map_eq_some_iff.1 h
  have hroom : s < 2 ^ 64 := by
    have hfirst := absorb_lt n.whole (s := 0) (by decide)
    rw [hwhole] at hfirst
    have hsecond := absorb_lt n.fraction hfirst
    rwa [hfraction] at hsecond
  obtain ⟨m, q, hparts, hsignificand, hlarge⟩ := parts_significand hroom
  refine ⟨s, k, m, q, y, fun hfew => ?_, hclose, hparts, hsignificand, ?_, rfl⟩
  · have hall : n.digits = Nat.ofDigitChars 10 n.fraction (Nat.ofDigitChars 10 n.whole 0) :=
      Nat.ofDigitChars_append 0
    rw [hall] at hfew
    rw [absorb_of_lt ((le_ofDigitChars _ n.fraction).trans_lt hfew)] at hwhole
    obtain ⟨rfl, rfl⟩ := Prod.mk.inj hwhole
    rw [absorb_of_lt hfew] at hfraction
    obtain ⟨rfl, rfl⟩ := Prod.mk.inj hfraction
    refine ⟨hall.symm, ?_⟩
    rw [← hk, Numeral.scale, List.length_nil, Int.natCast_zero, Int.add_zero, Nat.sub_zero]
  · split at hy
    · rename_i hnonneg
      have hscaled := scaled_scaleUp? hparts hy
      rwa [Int.toNat_of_nonneg hnonneg] at hscaled
    · rename_i hneg
      cases hy
      have hscaled := scaled_scaleDown hparts hlarge k.natAbs
      rwa [show -(k.natAbs : Int) = k by omega] at hscaled

/-- Powers of ten up to the twenty-second are doubles. -/
theorem exists_value?_ten_pow {k : Nat} (hk : k ≤ 22) : ∃ p, value? p = some ((10 : ℚ) ^ k) := by
  have hpos : 0 < 5 ^ k := Nat.pow_pos (by decide)
  have hlt : 5 ^ k < 2 ^ 53 := (Nat.pow_le_pow_right (by decide) hk).trans_lt (by decide)
  have hlog : (5 ^ k).log2 ≤ 52 := Nat.lt_succ_iff.1 ((Nat.log2_lt hpos.ne').2 hlt)
  have hfields := Number.normalized_of_lt hpos hlt
  have hvalue := Number.value_of_lt hpos hlt
  generalize 5 ^ k * 2 ^ (52 - (5 ^ k).log2) = m at hfields hvalue
  -- The factors of two go into the exponent.
  have hn : Number.Normalized m ((5 ^ k).log2 - 52 + k) := by
    have hleast := hfields.least
    refine ⟨hfields.pos, hfields.lt, by omega, fun _ => hfields.leading ?_⟩
    rw [Number.leastExponent]
    omega
  have hfinite : ((5 ^ k).log2 - 52 + k - Number.leastExponent : Int).toNat * 2 ^ 52 + m <
      Number.infinity := by
    have hm := hn.lt
    rw [Number.leastExponent, Number.infinity]
    omega
  have hparts := hn.parts_ofMagnitude false hfinite
  generalize Number.ofMagnitude false _ = p at hparts
  refine ⟨p, ?_⟩
  rw [value?, hparts, Option.some.injEq]
  show (m : ℚ) * 2 ^ ((5 ^ k).log2 - 52 + k : Int) = 10 ^ k
  rw [Number.two_zpow_add, ← mul_assoc, hvalue, zpow_natCast, Nat.cast_pow, ← mul_pow]
  norm_num

/-- Literals of few digits and with small exponents are rounded once. -/
theorem roundedOnce_of_lt (hdigits : n.digits < 2 ^ 53) (hscale : n.scale.natAbs ≤ 22) :
    RoundedOnce n := by
  obtain ⟨p, hp⟩ := exists_value?_ten_pow hscale
  have hvalue : value? (Number.ofInt n.digits) = some (n.digits : ℚ) := by
    exact_mod_cast Number.value?_ofInt (n := n.digits) hdigits
  exact .scaled (by omega) hvalue hp

/-- A double that is read is accurate and has the sign of the literal, and if there is only one
rounding, it is correct. -/
theorem rounds_double? (hdigits : ∀ c ∈ n.whole ++ n.fraction, c.isDigit = true)
    (h : double? n = some x) : isNegative x = n.negative ∧ Accurate n x ∧
      (n.digits < 2 ^ 64 → (∃ a, value? a = some (n.digits : ℚ)) →
        n.digits = 0 ∨ (∃ p, value? p = some ((10 : ℚ) ^ n.scale.natAbs)) →
          Rounds n.negative n.value x) := by
  obtain ⟨s, k, m, q, y, hexact, hclose, hparts, hsignificand, hscaled, rfl⟩ :=
    double?_eq_some hdigits h
  have hpower : Close 1 ((s : ℚ) * 10 ^ k) (m * 2 ^ q * 10 ^ k) :=
    hsignificand.mul (Close.refl _) (by positivity) (by positivity) (by positivity) (by positivity)
  obtain ⟨hsign, haccurate⟩ :=
    accurate_of_approximates (hscaled.approximates.trans (hclose.trans hpower))
  refine ⟨hsign, haccurate, ?_⟩
  rintro hfew ⟨a, ha⟩ honce
  obtain ⟨rfl, rfl⟩ := hexact hfew
  have hrounded := Number.rounds_ofRatio false n.digits Nat.one_pos
  rw [Nat.cast_one, div_one] at hrounded
  obtain ⟨m', q', hparts', hvalue⟩ := hrounded.exact (Nat.cast_nonneg _) ha
  rw [hparts] at hparts'
  obtain ⟨-, rfl, rfl⟩ := Number.Parts.finite.inj hparts'
  have hunsigned : Rounds false n.value y := by
    have hrounds := hscaled.rounds
    rw [hvalue, Nat.cast_eq_zero] at hrounds
    exact hrounds honce
  cases n.negative with
  | false => exact hunsigned
  | true => exact hunsigned.neg n.value_nonneg

/-- An integer of 64 bits is rounded once. -/
theorem rounds_ofInt (hzero : ¬ (n.negative = true ∧ n.digits = 0)) (hfraction : n.fraction = [])
    (hexponent : n.exponent = none) :
    n.value = n.digits ∧ Rounds n.negative n.value (Number.ofInt (signedDigits n)) := by
  have hvalue : n.value = n.digits := by
    rw [Numeral.value, Numeral.scale, hfraction, hexponent]
    simp
  refine ⟨hvalue, ?_⟩
  have hsign : decide (signedDigits n < 0) = n.negative := by
    unfold signedDigits
    cases hnegative : n.negative with
    | false => exact decide_eq_false (by simp only [Bool.false_eq_true, if_false]; omega)
    | true =>
      rw [hnegative] at hzero
      exact decide_eq_true (by simp only [if_true, true_and] at hzero ⊢; omega)
  have habs : (signedDigits n).natAbs = n.digits := by
    unfold signedDigits
    split <;> omega
  have hrounds := Number.rounds_ofRatio (decide (signedDigits n < 0)) (signedDigits n).natAbs
    Nat.one_pos
  rw [habs, Nat.cast_one, div_one, hsign] at hrounds
  rw [hvalue, Number.ofInt, hsign, habs]
  exact hrounds

/-- A literal is an integer of 64 bits, or else a double. -/
theorem number?_eq_some {cs : List Char} {j : Json} (h : number? cs = some j) :
    ∃ n, numeral? cs = some n ∧
      ((n.fraction = [] ∧ n.exponent = none ∧ ¬ (n.negative = true ∧ n.digits = 0) ∧
          isWord (signedDigits n) = true ∧ j = .integer (signedDigits n)) ∨
        ∃ x, double? n = some x ∧ j = .real x ∧
          (n.fraction = [] → n.exponent = none → isWord (signedDigits n) = true →
            n.digits = 0)) := by
  unfold number? at h
  obtain ⟨n, hn, h⟩ := Option.bind_eq_some_iff.1 h
  refine ⟨n, hn, ?_⟩
  have hreal {y : Json} (h : ((double? n).bind fun x => some (.real x)) = some y) :
      ∃ x, double? n = some x ∧ y = .real x := by
    obtain ⟨x, hx, h⟩ := Option.bind_eq_some_iff.1 h
    exact ⟨x, hx, (Option.some.inj h).symm⟩
  have hsigned : (if n.negative then -(n.digits : Int) else (n.digits : Int)) = signedDigits n := rfl
  dsimp only at h
  rw [hsigned] at h
  split at h
  · rename_i hinteger
    split at h
    · rename_i hword
      cases h
      rw [Bool.and_eq_true, Bool.not_eq_true'] at hword
      refine .inl ⟨hinteger.1, hinteger.2, ?_, hword.1, rfl⟩
      rintro ⟨hnegative, hzero⟩
      simp [hnegative, hzero] at hword
    · rename_i hword
      obtain ⟨x, hx, rfl⟩ := hreal h
      refine .inr ⟨x, hx, rfl, fun _ _ hfits => ?_⟩
      simp only [hfits, Bool.true_and, Bool.not_eq_true', Bool.not_eq_false, Bool.and_eq_true,
        beq_iff_eq] at hword
      exact hword.2
  · rename_i hinteger
    obtain ⟨x, hx, rfl⟩ := hreal h
    exact .inr ⟨x, hx, rfl, fun hfraction hexponent => absurd ⟨hfraction, hexponent⟩ hinteger⟩

theorem digits_lt_of_isWord (h : isWord (signedDigits n) = true) : n.digits < 2 ^ 64 := by
  unfold isWord signedDigits at h
  rw [Bool.and_eq_true, decide_eq_true_eq, decide_eq_true_eq] at h
  split at h <;> omega

/-- The number of a literal is accurate and has its sign, and if the literal is rounded only once, it is
the double nearest to it. -/
theorem rounds_number? {cs : List Char} {j : Json} (h : number? cs = some j)
    (hx : j.toValue = .ok (.number x)) :
    ∃ n, numeral? cs = some n ∧ isNegative x = n.negative ∧ Accurate n x ∧
      (RoundedOnce n → Rounds n.negative n.value x) := by
  obtain ⟨n, hn, ⟨hfraction, hexponent, hzero, hword, rfl⟩ | ⟨y, hy, rfl, hreal⟩⟩ :=
    number?_eq_some h
  · cases hx
    obtain ⟨hvalue, hrounds⟩ := rounds_ofInt hzero hfraction hexponent
    have hlt := hvalue ▸ natCast_lt_overflowBound (digits_lt_of_isWord hword)
    exact ⟨n, hn, hrounds.sign, accurate_of_rounds hrounds hlt, fun _ => hrounds⟩
  · cases hx
    obtain ⟨hsign, haccurate, hrounds⟩ := rounds_double? (isLiteral_of_numeral? hn).isDigit hy
    have hnothing (hdigits : n.digits = 0) : Rounds n.negative n.value x := by
      refine hrounds (by omega) ⟨Number.ofInt 0, ?_⟩ (.inl hdigits)
      rw [hdigits]
      exact_mod_cast Number.value?_ofInt (n := 0) (by decide)
    refine ⟨n, hn, hsign, haccurate, ?_⟩
    rintro (hdigits | ⟨hfraction, hexponent, hword⟩ | ⟨hdigits, ha, hp⟩)
    · exact hnothing hdigits
    · exact hnothing (hreal hfraction hexponent hword)
    · exact hrounds hdigits ⟨_, ha⟩ (.inr ⟨_, hp⟩)

end Doubles

/-! ## Documents that are numbers -/

theorem isCollection_of_toValue {j : Json} {x : Float} (h : j.toValue = .ok (.number x)) :
    j.isCollection = false ∧ ∀ text, j ≠ .string text := by
  cases j with
  | array items =>
    rw [toValue] at h
    cases hitems : itemsToValues items <;> rw [hitems] at h <;> cases h
  | object fields =>
    rw [toValue] at h
    cases hfields : fieldsToEntries fields <;> rw [hfields] at h <;> cases h
  | string text => cases h
  | null | boolean | integer | real => exact ⟨rfl, fun _ hstring => by cases hstring⟩

/-- A document that is a number is a literal between blanks. -/
theorem exists_number?_of_read? {s : String} {j : Json} {x : Float} (h : read? s = some j)
    (hx : j.toValue = .ok (.number x)) : ∃ before literal after,
      s.toList = before ++ literal ++ after ∧ (∀ c ∈ before, isSpace c = true) ∧
      (∀ c ∈ after, isSpace c = true) ∧ number? literal = some j := by
  obtain ⟨ts, htokens, hread⟩ := Option.bind_eq_some_iff.1 h
  obtain ⟨hcollection, hstring⟩ := isCollection_of_toValue hx
  obtain rfl | ⟨text, rfl⟩ := eq_scalar_or_string_of_ofTokens? hread hcollection
  · obtain ⟨before, word, after, hs, hbefore, hafter, hword⟩ := exists_word_of_tokens? htokens
    refine ⟨before, word, after, hs, hbefore, hafter, ?_⟩
    unfold word? at hword
    split at hword
    · cases hword
      cases hx
    split at hword
    · cases hword
      cases hx
    split at hword
    · cases hword
      cases hx
    · obtain ⟨k, hk, hscalar⟩ := Option.map_eq_some_iff.1 hword
      cases hscalar
      exact hk
  · exact absurd rfl (hstring text)

end Formula.Json

namespace Formula

open Number (Numeral Rounds isNegative value?)
open Json (Accurate RoundedOnce)

theorem isBlank_of_isSpace {c : Char} (h : Json.isSpace c = true) : isBlank c = true := by
  simp only [Json.isSpace, Bool.or_eq_true, decide_eq_true_eq] at h
  obtain ((rfl | rfl) | rfl) | rfl := h <;> decide

/-- **A number in a document and in a text.** Whatever is read as a number is accepted as a text, too,
by every operator on numbers, and under the same sign, that of a zero included. The text is the double
nearest to what it spells. The number of the document is off by at most one part in `2 ^ 50` and the
least double, and it is the number of the text if it is rounded only once. -/
theorem number_and_text (s : String) (x : Float) (h : Value.read s = .ok (.number x)) :
    ∃ n y, PaddedLiteral s.toList n ∧
      (∀ operator, (Value.text s).asNumber operator = .ok y) ∧ Rounds n.negative n.value y ∧
      isNegative y = isNegative x ∧ Accurate n x ∧ (RoundedOnce n → x = y) := by
  unfold Value.read at h
  cases hread : Json.read? s with
  | none =>
    rw [hread] at h
    cases h
  | some j =>
    rw [hread] at h
    obtain ⟨before, literal, after, hs, hbefore, hafter, hliteral⟩ :=
      Json.exists_number?_of_read? hread h
    obtain ⟨n, hn, hsign, haccurate, hrounds⟩ := Json.rounds_number? hliteral h
    have hpadded : PaddedLiteral s.toList n :=
      ⟨before, literal, after, hs, fun c hc => isBlank_of_isSpace (hbefore c hc),
        fun c hc => isBlank_of_isSpace (hafter c hc), Json.isLiteral_of_numeral? hn⟩
    have hnearest : Rounds n.negative n.value n.toNumber := Number.rounds_ofDecimal _ _ _
    refine ⟨n, n.toNumber, hpadded, fun operator => ?_, hnearest, hnearest.sign.trans hsign.symm,
      haccurate, ?_⟩
    · exact asNumber_eq_ok_iff.2 ⟨n, hpadded, hnearest⟩
    · exact fun honce => (hrounds honce).unique hnearest n.value_nonneg

theorem read_of_double? {s : String} {n : Numeral} {x : Float} (hn : Json.numeral? s.toList = some n)
    (hx : Json.double? n = some x) (hmark : '.' ∈ s.toList ∨ 'e' ∈ s.toList) :
    Value.read s = .ok (.number x) := by
  have htokens := Json.tokens?_number (Json.number?_eq_real hn hx hmark) Json.endsWord_nil
  rw [List.append_nil] at htokens
  rw [Value.read, Json.read?, htokens]
  rfl

/-- A number of two digits, and a power of ten that is a double: document and text agree. -/
theorem number_and_text_scaled :
    let n : Numeral := ⟨true, ['2'], ['5'], some 22⟩
    ∃ x, Value.read "-2.5E+22" = .ok (.number x) ∧ PaddedLiteral "-2.5E+22".toList n ∧ RoundedOnce n ∧
      Rounds true n.value x ∧ Accurate n x ∧
      ∀ operator, (Value.text "-2.5E+22").asNumber operator = .ok x := by
  intro n
  have hdouble : Json.double? n = some (Number.ofMagnitude true 0x44952d02c7e14af6) := by
    decide +kernel
  have hx : Value.read "-2.5E+22" = .ok (.number (Number.ofMagnitude true 0x44952d02c7e14af6)) :=
    read_of_double? (by decide) hdouble (.inl (by decide))
  obtain ⟨k, y, hpadded, hread, hrounds, -, haccurate, hagree⟩ := number_and_text "-2.5E+22" _ hx
  obtain rfl : n = k := by
    have hliteral := read?_trim_eq_some_iff.2 hpadded
    rw [show Numeral.read? (trim "-2.5E+22".toList) = some n by decide] at hliteral
    exact Option.some.inj hliteral
  have honce : RoundedOnce n := Json.roundedOnce_of_lt (by decide) (by decide)
  obtain rfl := hagree honce
  exact ⟨_, hx, hpadded, honce, hrounds, haccurate, hread⟩

/-- Three roundings miss the nearest double, as the power of ten is none. -/
theorem number_and_text_differ : ∃ x y, Value.read "3e23" = .ok (.number x) ∧
    (∀ operator, (Value.text "3e23").asNumber operator = .ok y) ∧ x ≠ y := by
  have hdouble : Json.double? ⟨false, ['3'], [], some 23⟩ =
      some (Number.ofMagnitude false 0x44cfc3842bd1f071) := by
    decide +kernel
  have hread : numberOfText? "3e23" = some (Number.ofMagnitude false 0x44cfc3842bd1f072) := by
    decide +kernel
  have hx : Value.read "3e23" = .ok (.number (Number.ofMagnitude false 0x44cfc3842bd1f071)) :=
    read_of_double? (by decide) hdouble (.inr (by decide))
  refine ⟨_, Number.ofMagnitude false 0x44cfc3842bd1f072, hx, fun operator => ?_, by decide +kernel⟩
  rw [Value.asNumber, hread]

end Formula
