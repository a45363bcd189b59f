import Formula.Proofs.Number.Magnitude
/-!
# Correct rounding

Fractions and decimals are rounded to the nearest magnitude, and to infinity from half a unit above the
greatest finite double on. `Rounds` says the same of doubles alone: the one that a number is rounded to
has the sign asked for, and no other double is nearer to the number, or as near and not odd.

Results:
* `nearest_spec`, `nearestDecimal_spec`: rounding yields the nearest magnitude, or infinity.
* `rounds_ofMagnitude`: the double of the nearest magnitude is the one that the number is rounded to.
* `rounds_ofDecimal`: decimals are rounded correctly, however many digits they have.
* `Rounds.unique`: there is no other double that the number may be rounded to.
-/
namespace Formula.Number

open Magnitude (IsNearest isNearest_iff)

/-! ## Nearest magnitudes -/

theorem nearest_eq_zero {a b : Nat} (hb : 0 < b) (h : (a : ℚ) / b ≤ Magnitude.half 0) :
    nearest a b = 0 := by
  have hhalf : Magnitude.half 0 = 2 ^ leastExponent / 2 := by
    rw [Magnitude.half, Magnitude.value_zero, zero_add, Magnitude.value_one]
  unfold nearest
  split
  · rfl
  · rename_i ha
    obtain ⟨hlow, -⟩ := binaryExponent_spec (Nat.pos_iff_ne_zero.2 ha) hb
    have hexponent : max (binaryExponent a b) leastExponent = leastExponent := by
      have hlt : (2 : ℚ) ^ (binaryExponent a b + 52) < 2 ^ leastExponent := by
        have := two_zpow_pos leastExponent
        linarith
      have := two_zpow_lt_iff.1 hlt
      omega
    have hround : |((a * 2 ^ (-leastExponent).toNat : Nat) : ℚ) /
        (b * 2 ^ leastExponent.toNat : Nat) - (0 : Nat)| ≤ 1 / 2 := by
      have hpos := two_zpow_pos leastExponent
      rw [ratio_scaled hb, Nat.cast_zero, sub_zero, abs_of_nonneg (by positivity),
        div_le_iff₀ hpos]
      linarith
    have heven : ¬ 0 % 2 = 1 := by decide
    dsimp only
    rw [hexponent, roundHalfEven_eq (Nat.mul_pos hb (Nat.two_pow_pos _)) hround
      fun hodd => absurd hodd heven]
    rfl

/-- A fraction is rounded to the nearest magnitude, as far as magnitudes go. -/
theorem nearest_spec (a : Nat) {b : Nat} (hb : 0 < b) :
    ∃ n, IsNearest n ((a : ℚ) / b) ∧ nearest a b = min n infinity := by
  obtain ⟨n, hn⟩ := Magnitude.exists_isNearest (v := (a : ℚ) / b) (by positivity)
  refine ⟨n, hn, ?_⟩
  rcases Nat.eq_zero_or_pos n with rfl | hpos
  · exact nearest_eq_zero hb (Magnitude.isNearest_zero_iff.1 hn)
  · rw [(Magnitude.normalized hpos).nearest_eq hb ((Magnitude.spans_iff_isNearest hpos).2 hn),
      Magnitude.eq_index]

/-- Where the exponent of a decimal is far too small, the decimal is nearest to zero. -/
theorem nearestDecimal_eq_zero {d : Nat} {k : ℤ} (h : (d : ℚ) * 10 ^ k ≤ Magnitude.half 0) :
    nearestDecimal d k = 0 := by
  unfold nearestDecimal
  split
  · rfl
  · rename_i hd
    have hone : (1 : ℚ) ≤ d := by exact_mod_cast Nat.one_le_iff_ne_zero.2 hd
    split
    · rename_i hk
      have hlarge : (1 : ℚ) ≤ d * 10 ^ k :=
        one_le_mul_of_one_le_of_one_le hone (one_le_zpow₀ (by norm_num) (by omega))
      have hsmall : Magnitude.half 0 < 1 := by
        calc Magnitude.half 0 < Magnitude.value 1 := Magnitude.half_lt_value 0
          _ = 2 ^ leastExponent := Magnitude.value_one
          _ ≤ 1 := zpow_le_one_of_nonpos₀ one_le_two (by decide)
      linarith
    split
    · rfl
    · refine nearest_eq_zero (Nat.pow_pos (by decide)) ?_
      rwa [ratio_decimal]

/-- A decimal is rounded to the nearest magnitude, as far as magnitudes go. -/
theorem nearestDecimal_spec (d : Nat) (k : ℤ) :
    ∃ n, IsNearest n (d * 10 ^ k) ∧ nearestDecimal d k = min n infinity := by
  obtain ⟨n, hn⟩ := Magnitude.exists_isNearest (v := (d : ℚ) * 10 ^ k) (by positivity)
  refine ⟨n, hn, ?_⟩
  rcases Nat.eq_zero_or_pos n with rfl | hpos
  · exact nearestDecimal_eq_zero (Magnitude.isNearest_zero_iff.1 hn)
  · rw [(Magnitude.normalized hpos).nearestDecimal_eq ((Magnitude.spans_iff_isNearest hpos).2 hn),
      Magnitude.eq_index]

/-! ## Overflow -/

/-- From half a unit above the greatest finite double on, numbers are too large. -/
def overflowBound : ℚ := 2 ^ (1024 : ℤ) - 2 ^ (970 : ℤ)

theorem overflowBound_eq : overflowBound = Magnitude.half (infinity - 1) := by
  have hvalue : Magnitude.value (infinity - 1 + 1) = (2 ^ 52 : Nat) * 2 ^ (972 : ℤ) := by
    rw [Magnitude.value, show Magnitude.significand (infinity - 1 + 1) = 2 ^ 52 by decide,
      show Magnitude.exponent (infinity - 1 + 1) = 972 by decide]
  rw [Magnitude.half_eq_sub, hvalue, show Magnitude.exponent (infinity - 1) = 971 by decide,
    overflowBound, show (1024 : ℤ) = 54 + 970 by rfl, show (972 : ℤ) = 2 + 970 by rfl,
    show (971 : ℤ) = 1 + 970 by rfl, two_zpow_add, two_zpow_add, two_zpow_add]
  generalize (2 : ℚ) ^ (970 : ℤ) = u
  norm_num
  ring

theorem infinity_le_iff {n : Nat} {v : ℚ} (h : IsNearest n v) : infinity ≤ n ↔ overflowBound ≤ v := by
  rw [overflowBound_eq]
  obtain ⟨hlow, hhigh, htie⟩ := isNearest_iff.1 h
  constructor
  · intro hn
    obtain ⟨k, rfl⟩ := Nat.exists_eq_succ_of_ne_zero (show n ≠ 0 by rintro rfl; cases hn)
    refine (Magnitude.strictMono_half.monotone ?_).trans (hlow k rfl).1
    omega
  · -- The greatest finite magnitude is odd.
    intro hv
    by_contra hn
    have hle := Magnitude.strictMono_half.monotone (show n ≤ infinity - 1 by omega)
    have heq := Magnitude.strictMono_half.injective (le_antisymm hle (hv.trans hhigh))
    have := htie (le_antisymm hhigh (hle.trans hv))
    rw [heq] at this
    cases this

theorem lt_infinity_of_lt {n : Nat} {v : ℚ} (h : IsNearest n v) (hv : v < overflowBound) :
    n < infinity :=
  not_le.1 (mt (infinity_le_iff h).1 hv.not_ge)

/-! ## Doubles -/

section Parts

variable {x y : Float} {negative : Bool} {m n : Nat} {q : Int}

theorem parts_ofMagnitude_of_lt (negative : Bool) (hn : n < infinity) :
    parts (ofMagnitude negative n) =
      .finite negative (Magnitude.significand n) (Magnitude.exponent n) := by
  rw [parts, isNegative_ofMagnitude hn.le, magnitude_ofMagnitude hn.le]
  rw [infinity] at hn
  unfold Parts.ofMagnitude Magnitude.significand Magnitude.exponent
  dsimp only
  rw [if_neg (by omega)]
  split
  · rw [if_pos (by omega)]
    congr 1 <;> omega
  · rw [if_neg (by omega)]
    congr 1
    omega

theorem parts_ofMagnitude_infinity (negative : Bool) :
    parts (ofMagnitude negative infinity) = .infinite negative := by
  rw [parts, isNegative_ofMagnitude le_rfl, magnitude_ofMagnitude le_rfl]
  rfl

/-- The magnitude of a finite double denotes what the double does. -/
theorem value_magnitude (h : parts x = .finite negative m q) :
    Magnitude.value (magnitude x) = m * 2 ^ q ∧ magnitude x % 2 = m % 2 := by
  obtain ⟨hnegative, hmagnitude, hlt, -⟩ := parts_eq_finite h
  have hparts := parts_ofMagnitude_of_lt negative hlt
  rw [← hnegative, ofMagnitude_magnitude hlt.le, h, hnegative] at hparts
  obtain ⟨-, hm, hq⟩ := Parts.finite.inj hparts
  rw [Magnitude.value, hm, hq, Magnitude.significand_mod_two]
  exact ⟨rfl, rfl⟩

/-- A finite double denotes less than the bound of overflow. -/
theorem value_lt_overflowBound (h : parts x = .finite negative m q) :
    (m * 2 ^ q : ℚ) < overflowBound := by
  rw [← (value_magnitude h).1, ← not_le, ← infinity_le_iff (Magnitude.isNearest_value _), not_le]
  exact (parts_eq_finite h).2.2.1

theorem eq_of_parts_infinite (h : parts x = .infinite negative) :
    x = ofMagnitude negative infinity := by
  unfold parts Parts.ofMagnitude at h
  dsimp only at h
  split at h
  · split at h
    · rename_i hfield hfraction
      have hmagnitude : magnitude x = infinity := by
        rw [infinity]
        omega
      rw [← Parts.infinite.inj h, ← hmagnitude, ofMagnitude_magnitude hmagnitude.le]
    · cases h
  · split at h <;> cases h

end Parts

/-! ## Rounding under a sign -/

def withSign (negative : Bool) (v : ℚ) : ℚ := if negative then -v else v

theorem abs_withSign (negative : Bool) (v : ℚ) : |withSign negative v| = |v| := by
  cases negative with
  | false => rfl
  | true => exact abs_neg v

theorem abs_signed (negative : Bool) (m : Nat) (q : Int) : |signed negative m q| = m * 2 ^ q := by
  have hnonneg : (0 : ℚ) ≤ m * 2 ^ q := by positivity
  exact (abs_withSign negative _).trans (abs_of_nonneg hnonneg)

theorem withSign_injective (negative : Bool) : Function.Injective (withSign negative) := by
  cases negative with
  | false => exact fun _ _ h => h
  | true => exact neg_injective

theorem abs_withSign_sub (negative : Bool) (a v : ℚ) :
    |withSign negative a - withSign negative v| = |a - v| := by
  cases negative with
  | false => rfl
  | true =>
    show |-a - -v| = |a - v|
    rw [neg_sub_neg, abs_sub_comm]

/-- The double to which `± v` is rounded, to nearest and in a tie to even: an infinity when the number is
too large, a zero when it is too small, and under the sign of the number in any case. -/
structure Rounds (negative : Bool) (v : ℚ) (x : Float) : Prop where
  sign : isNegative x = negative
  overflow : overflowBound ≤ v → parts x = .infinite negative
  nearest : v < overflowBound → ∃ m q, parts x = .finite negative m q ∧
    ∀ y u, value? y = some u →
      |signed negative m q - withSign negative v| ≤ |u - withSign negative v| ∧
        (u ≠ signed negative m q →
          |signed negative m q - withSign negative v| = |u - withSign negative v| → m % 2 = 0)
  underflow : v ≤ 2 ^ (leastExponent - 1) → parts x = .finite negative 0 leastExponent

variable {negative : Bool} {v : ℚ} {n : Nat} {x y : Float}

theorem half_zero : Magnitude.half 0 = 2 ^ (leastExponent - 1) := by
  rw [Magnitude.half, Magnitude.value_zero, zero_add, Magnitude.value_one,
    zpow_sub_one₀ two_ne_zero, div_eq_mul_inv]

theorem signed_eq_withSign {m : Nat} {q : Int} (hx : parts x = .finite negative m q) (s : Bool) :
    signed s m q = withSign s (Magnitude.value (magnitude x)) := by
  rw [(value_magnitude hx).1]
  rfl

/-- To a number that is not negative, no negative one is nearer than its absolute value is. -/
theorem abs_sub_le_withSign (s t : Bool) {a : ℚ} (ha : 0 ≤ a) (hv : 0 ≤ v) :
    |a - v| ≤ |withSign s a - withSign t v| := by
  calc |a - v| = |(|withSign s a| - |withSign t v|)| := by
        rw [abs_withSign, abs_withSign, abs_of_nonneg ha, abs_of_nonneg hv]
    _ ≤ |withSign s a - withSign t v| := abs_abs_sub_abs_le _ _

/-- Only zero is as near under the other sign. -/
theorem eq_zero_of_tie (h : IsNearest n v) (hv : 0 ≤ v)
    (htie : |Magnitude.value n - v| = Magnitude.value n + v) : n = 0 := by
  rcases abs_cases (Magnitude.value n - v) with ⟨habs, -⟩ | ⟨habs, -⟩
  · have hzero : v = 0 := by
      linarith
    refine h.unique (Magnitude.isNearest_zero_iff.2 ?_)
    exact hzero ▸ Magnitude.value_zero ▸ (Magnitude.value_lt_half 0).le
  · refine Magnitude.strictMono_value.injective ?_
    rw [Magnitude.value_zero]
    linarith

theorem even_of_tie (h : IsNearest n v) (hv : 0 ≤ v) {s : Bool} {k : Nat}
    (hne : withSign s (Magnitude.value k) ≠ withSign negative (Magnitude.value n))
    (htie : |Magnitude.value n - v| = |withSign s (Magnitude.value k) - withSign negative v|) :
    n % 2 = 0 := by
  have hle := abs_sub_le_withSign s negative (Magnitude.value_nonneg k) hv
  by_cases hk : k = n
  · -- The two doubles differ in nothing but their sign.
    subst hk
    rw [eq_zero_of_tie h hv]
    have hnonneg := Magnitude.value_nonneg k
    rw [htie]
    cases s <;> cases negative
    · exact absurd rfl hne
    · simp only [withSign, Bool.false_eq_true, if_false, if_true, sub_neg_eq_add]
      exact abs_of_nonneg (by linarith)
    · simp only [withSign, Bool.false_eq_true, if_false, if_true]
      rw [abs_of_nonpos (by linarith)]
      ring
    · exact absurd rfl hne
  · exact (h k).2 hk (le_antisymm (h k).1 (hle.trans htie.ge))

/-- The double of the nearest magnitude is the one that the number is rounded to. -/
theorem rounds_ofMagnitude (negative : Bool) (hv : 0 ≤ v) (h : IsNearest n v) :
    Rounds negative v (ofMagnitude negative (min n infinity)) where
  sign := isNegative_ofMagnitude (min_le_right _ _)
  overflow hoverflow := by
    rw [min_eq_right ((infinity_le_iff h).2 hoverflow), parts_ofMagnitude_infinity]
  nearest hfinite := by
    have hn := lt_infinity_of_lt h hfinite
    rw [min_eq_left hn.le]
    refine ⟨_, _, parts_ofMagnitude_of_lt negative hn, fun y u hy => ?_⟩
    obtain ⟨s, m, q, hparts, rfl⟩ := value?_eq_some hy
    have hself : signed negative (Magnitude.significand n) (Magnitude.exponent n) =
        withSign negative (Magnitude.value n) := rfl
    rw [hself, signed_eq_withSign hparts, abs_withSign_sub, Magnitude.significand_mod_two]
    have hle := abs_sub_le_withSign s negative (Magnitude.value_nonneg (magnitude y)) hv
    exact ⟨(h _).1.trans hle, even_of_tie h hv⟩
  underflow hsmall := by
    have hzero : n = 0 := h.unique (Magnitude.isNearest_zero_iff.2 (half_zero ▸ hsmall))
    rw [hzero, min_eq_left (Nat.zero_le _), parts_ofMagnitude_of_lt negative (by decide)]
    rfl

/-- **Decimals are rounded correctly**, however many digits and whatever exponent they have. -/
theorem rounds_ofDecimal (negative : Bool) (d : Nat) (k : ℤ) :
    Rounds negative (d * 10 ^ k) (ofDecimal negative d k) := by
  obtain ⟨n, hn, hnearest⟩ := nearestDecimal_spec d k
  rw [ofDecimal, hnearest]
  exact rounds_ofMagnitude negative (by positivity) hn

/-- No other double is one that the number may be rounded to. -/
theorem Rounds.eq_ofMagnitude (h : Rounds negative v x) (hn : IsNearest n v) :
    x = ofMagnitude negative (min n infinity) := by
  rcases lt_or_ge v overflowBound with hlt | hge
  · have hfinite := lt_infinity_of_lt hn hlt
    obtain ⟨m, q, hparts, hbest⟩ := h.nearest hlt
    obtain ⟨hnegative, -, hx, -⟩ := parts_eq_finite hparts
    have hother : value? (ofMagnitude negative n) = some (withSign negative (Magnitude.value n)) := by
      rw [value?, parts_ofMagnitude_of_lt negative hfinite]
      rfl
    obtain ⟨hle, htie⟩ := hbest _ _ hother
    rw [signed_eq_withSign hparts, abs_withSign_sub, abs_withSign_sub] at hle htie
    have heq := le_antisymm hle (hn (magnitude x)).1
    have hmagnitude : magnitude x = n := by
      by_contra hne
      have hdiffer : withSign negative (Magnitude.value n) ≠
          withSign negative (Magnitude.value (magnitude x)) := fun h =>
        hne (Magnitude.strictMono_value.injective (withSign_injective negative h)).symm
      have heven := (value_magnitude hparts).2.trans (htie hdiffer heq)
      have hnearest : IsNearest (magnitude x) v := fun k => ⟨heq.trans_le (hn k).1, fun _ _ => heven⟩
      exact hne (hnearest.unique hn)
    rw [min_eq_left hfinite.le, ← hmagnitude, ← hnegative, ofMagnitude_magnitude hx.le]
  · rw [min_eq_right ((infinity_le_iff hn).2 hge)]
    exact eq_of_parts_infinite (h.overflow hge)

theorem Rounds.unique (hx : Rounds negative v x) (hy : Rounds negative v y) (hv : 0 ≤ v) : x = y := by
  obtain ⟨n, hn⟩ := Magnitude.exists_isNearest hv
  rw [hx.eq_ofMagnitude hn, hy.eq_ofMagnitude hn]

/-- A number that a double denotes is rounded to this double. -/
theorem Rounds.exact (h : Rounds negative v x) (hv : 0 ≤ v) (hy : value? y = some v) :
    ∃ m q, parts x = .finite negative m q ∧ (m * 2 ^ q : ℚ) = v := by
  obtain ⟨s, m, q, hparts, hvalue⟩ := value?_eq_some hy
  have hmagnitude : Magnitude.value (magnitude y) = v := by
    rw [signed_eq_withSign hparts] at hvalue
    rw [← abs_of_nonneg hv, ← hvalue, abs_withSign, abs_of_nonneg (Magnitude.value_nonneg _)]
  have hlt := (parts_eq_finite hparts).2.2.1
  rw [h.eq_ofMagnitude (hmagnitude ▸ Magnitude.isNearest_value _), min_eq_left hlt.le]
  exact ⟨_, _, parts_ofMagnitude_of_lt negative hlt, hmagnitude⟩

end Formula.Number
