import Formula.Proofs.Number.Order
/-!
# Products and quotients of doubles

Core multiplies and divides the significands in its logical model, cuts the result off at the exponent
of a double, and rounds by what was cut off, of which two bits tell whether it is nothing, and how it
compares with a half. So products and quotients are the exact ones, rounded once.

Results:
* `cut_shiftRight`: cutting further digits off keeps what is known of those cut off before.
* `roundWithAccuracy_eq_ofRatio`: what core rounds is the double nearest to the fraction.
* `mul_eq_ofRatio`, `div_eq_ofRatio`: products and quotients.
* `rounds_mul`, `rounds_div`: the same as correct rounding.
-/
namespace Formula.Number

open Float.Model (UnpackedFloat Format totalExponent)
open Float.Model.UnpackedFloat (Sign Accuracy ExtendedMantissa roundWithAccuracy shiftToTargetExponent
  pack unpack)

/-! ## Numbers that are cut off -/

/-- The number has the whole part `m`, and the accuracy tells of the rest. -/
def Cut (m : Nat) (w : ℚ) : Accuracy → Prop
  | .exact => w = m
  | .inexact .lt => (m : ℚ) < w ∧ w < m + 1 / 2
  | .inexact .eq => w = m + 1 / 2
  | .inexact .gt => (m : ℚ) + 1 / 2 < w ∧ w < m + 1

section Cut

variable {m : Nat} {w : ℚ} {accuracy : Accuracy}

theorem Cut.bounds (h : Cut m w accuracy) : (m : ℚ) ≤ w ∧ w < m + 1 := by
  match accuracy, h with
  | .exact, h => exact ⟨h.ge, by rw [h]; linarith⟩
  | .inexact .lt, h => exact ⟨h.1.le, by linarith [h.2]⟩
  | .inexact .eq, h => exact ⟨by rw [h]; linarith, by rw [h]; linarith⟩
  | .inexact .gt, h => exact ⟨by linarith [h.1], h.2⟩

/-- Rounding by the rest is rounding to nearest, and in a tie to even. -/
theorem Cut.round (h : Cut m w accuracy) :
    |w - (accuracy.roundToNearestEven m : Nat)| ≤ 1 / 2 ∧
      (accuracy.roundToNearestEven m % 2 = 1 →
        |w - (accuracy.roundToNearestEven m : Nat)| < 1 / 2) := by
  match accuracy, h with
  | .exact, h =>
    rw [Accuracy.roundToNearestEven, h.symm, sub_self, abs_zero]
    norm_num
  | .inexact .lt, h =>
    rw [Accuracy.roundToNearestEven, abs_of_pos (by linarith [h.1])]
    exact ⟨by linarith [h.2], fun _ => by linarith [h.2]⟩
  | .inexact .eq, h =>
    have hrounded : (Accuracy.inexact .eq).roundToNearestEven m = m + m % 2 := rfl
    rw [hrounded]
    refine ⟨?_, fun hodd => by omega⟩
    rw [abs_le]
    rcases Nat.mod_two_eq_zero_or_one m with hm | hm
    · rw [hm, h, Nat.add_zero]
      constructor <;> linarith
    · rw [hm, h]
      push_cast
      constructor <;> linarith
  | .inexact .gt, h =>
    have hrounded : (Accuracy.inexact .gt).roundToNearestEven m = m + 1 := rfl
    rw [hrounded]
    push_cast
    rw [abs_of_neg (by linarith [h.2])]
    exact ⟨by linarith [h.1], fun _ => by linarith [h.1]⟩

/-- The two bits tell whether there is a rest. -/
theorem Cut.exact_or_inexact {half rest : Bool}
    (h : Cut m w (ExtendedMantissa.accuracy ⟨m, half, rest⟩)) :
    ((half || rest) = false ∧ w = m) ∨ ((half || rest) = true ∧ (m : ℚ) < w ∧ w < m + 1) := by
  match half, rest, h with
  | false, false, h => exact .inl ⟨rfl, h⟩
  | false, true, h => exact .inr ⟨rfl, h.1, by linarith [h.2]⟩
  | true, false, h => exact .inr ⟨rfl, by rw [h]; linarith, by rw [h]; linarith⟩
  | true, true, h => exact .inr ⟨rfl, by linarith [h.1], h.2⟩

/-- The digit cut off next is compared with a half, and the two bits with nothing. -/
theorem cut_shiftRightOne {em : ExtendedMantissa} (h : Cut em.mantissa w em.accuracy) :
    Cut em.shiftRightOne.mantissa (w / 2) em.shiftRightOne.accuracy := by
  obtain ⟨m, half, rest⟩ := em
  have hm : (m : ℚ) = 2 * (m / 2 : Nat) + (m % 2 : Nat) := by
    exact_mod_cast (Nat.div_add_mod m 2).symm
  unfold ExtendedMantissa.shiftRightOne
  dsimp only
  rcases Nat.mod_two_eq_zero_or_one m with hparity | hparity
  · rw [hparity, Nat.cast_zero] at hm
    obtain ⟨hbits, hw⟩ | ⟨hbits, hlow, hhigh⟩ := Cut.exact_or_inexact h
    · rw [hparity, hbits]
      show w / 2 = (m / 2 : Nat)
      linarith
    · rw [hparity, hbits]
      show ((m / 2 : Nat) : ℚ) < w / 2 ∧ w / 2 < (m / 2 : Nat) + 1 / 2
      constructor <;> linarith
  · rw [hparity, Nat.cast_one] at hm
    obtain ⟨hbits, hw⟩ | ⟨hbits, hlow, hhigh⟩ := Cut.exact_or_inexact h
    · rw [hparity, hbits]
      show w / 2 = (m / 2 : Nat) + 1 / 2
      linarith
    · rw [hparity, hbits]
      show ((m / 2 : Nat) : ℚ) + 1 / 2 < w / 2 ∧ w / 2 < (m / 2 : Nat) + 1
      constructor <;> linarith

theorem cut_shiftRight {em : ExtendedMantissa} (h : Cut em.mantissa w em.accuracy) (n : Nat) :
    Cut (em >>> n).mantissa (w / 2 ^ n) (em >>> n).accuracy := by
  induction n with
  | zero =>
    rw [pow_zero, div_one]
    exact h
  | succ n ih =>
    rw [pow_succ, ← div_div]
    exact cut_shiftRightOne ih

theorem cut_ofMantissaAndAccuracy (h : Cut m w accuracy) :
    Cut (ExtendedMantissa.ofMantissaAndAccuracy m accuracy).mantissa w
      (ExtendedMantissa.ofMantissaAndAccuracy m accuracy).accuracy := by
  match accuracy with
  | .exact | .inexact .lt | .inexact .eq | .inexact .gt => exact h

end Cut

/-! ## Rounding -/

section Rounding

variable {negative : Bool} {m : Nat} {e q : Int} {accuracy : Accuracy}

theorem targetExponent_eq (e : Int) :
    Format.binary64.targetExponent e = max (e - 53) leastExponent := rfl

theorem shiftRight_zero (em : ExtendedMantissa) : em >>> (0 : Nat) = em := rfl

/-- After rounding there is no rest. Nothing is left to shift unless a carry goes beyond 53 digits. -/
theorem shiftToTargetExponent_of_lt (hm : m < 2 ^ 53) (he : leastExponent ≤ e) :
    shiftToTargetExponent Format.binary64 m e .exact = (⟨m, false, false⟩, e) := by
  have hlog : m.log2 ≤ 52 := by
    by_cases hzero : m = 0
    · rw [hzero]
      decide
    · exact Nat.lt_succ_iff.1 ((Nat.log2_lt hzero).2 hm)
  have hshift : (Format.binary64.targetExponent (totalExponent m e) - e).toNat = 0 := by
    rw [targetExponent_eq, totalExponent]
    omega
  unfold shiftToTargetExponent UnpackedFloat.shiftToExponent
  dsimp only
  rw [hshift, shiftRight_zero, Int.natCast_zero, Int.add_zero]
  rfl

theorem shiftToTargetExponent_carry (he : leastExponent ≤ e) :
    shiftToTargetExponent Format.binary64 (2 ^ 53) e .exact = (⟨2 ^ 52, false, false⟩, e + 1) := by
  have hshift : (Format.binary64.targetExponent (totalExponent (2 ^ 53) e) - e).toNat = 1 := by
    rw [targetExponent_eq, totalExponent, show Nat.log2 (2 ^ 53) = 53 by decide]
    omega
  unfold shiftToTargetExponent UnpackedFloat.shiftToExponent
  dsimp only
  rw [hshift]
  rfl

/-- The double with the fields of the logical model, or an infinity if there is none. -/
theorem ofModel_pack_finite (hn : Normalized m q) (negative : Bool) :
    Float.ofModel (.pack (.finite (modelSign negative) m q hn.pos)) =
      ofMagnitude negative (min ((q - leastExponent).toNat * 2 ^ 52 + m) infinity) := by
  rcases Nat.lt_or_ge ((q - leastExponent).toNat * 2 ^ 52 + m) infinity with hlt | hge
  · have hfields := parts_ofMagnitude_of_lt negative hlt
    rw [(Magnitude.fields_index hn).1, (Magnitude.fields_index hn).2,
      parts_ofMagnitude negative hlt.le] at hfields
    rw [min_eq_left hlt.le]
    refine ofModel_pack negative hlt.le (Eq.trans ?_ hfields.symm)
    cases negative <;> rfl
  · have hoverflow : pack Format.binary64 (.finite (modelSign negative) m q hn.pos) =
        pack Format.binary64 (.infinity (modelSign negative)) := by
      have hlt := hn.lt
      have hfield : 2 ^ Format.binary64.exponentBits ≤ (q + (Format.binary64.exponentBias : Nat) +
          (Format.binary64.mantissaBitsWithoutImplicit : Nat)).toNat + 1 := by
        rw [show Format.binary64.exponentBias = 1023 from rfl,
          show Format.binary64.mantissaBitsWithoutImplicit = 52 from rfl,
          show Format.binary64.exponentBits = 11 from rfl]
        rw [infinity, leastExponent] at hge
        omega
      unfold pack
      exact if_pos hfield
    have hmodel : Float.Model.pack (.finite (modelSign negative) m q hn.pos) =
        Float.Model.pack (.infinity (modelSign negative)) := by
      unfold Float.Model.pack
      rw [Float.Model.mk.injEq, hoverflow]
    rw [min_eq_right hge, hmodel]
    refine ofModel_pack negative le_rfl ?_
    cases negative <;> rfl

/-! ### Fractions -/

variable {a b : Nat}

/-- The exponent at which the fraction is rounded, found from its whole part at an exponent that is not
too great. -/
theorem targetExponent_of_cut (ha : 0 < a) (hb : 0 < b) (h : Cut m ((a : ℚ) / b / 2 ^ e) accuracy)
    (he : e ≤ max (binaryExponent a b) leastExponent) :
    Format.binary64.targetExponent (totalExponent m e) = max (binaryExponent a b) leastExponent := by
  have hunit := two_zpow_pos e
  obtain ⟨hlow, hhigh⟩ := h.bounds
  rw [le_div_iff₀ hunit] at hlow
  rw [div_lt_iff₀ hunit] at hhigh
  obtain ⟨hge, hlt⟩ := binaryExponent_spec ha hb
  rw [targetExponent_eq, totalExponent]
  rcases Nat.eq_zero_or_pos m with rfl | hm
  · rw [Nat.cast_zero, zero_add, one_mul] at hhigh
    have := two_zpow_lt_iff.1 (hge.trans_lt hhigh)
    rw [show Nat.log2 0 = 0 by decide]
    omega
  · obtain ⟨hmlow, -⟩ := log2_bounds hm
    have hmhigh : (m : ℚ) + 1 ≤ 2 ^ ((m.log2 : ℤ) + 1) := by
      have := @Nat.lt_log2_self m
      rw [show (m.log2 : ℤ) + 1 = (m.log2 + 1 : Nat) by push_cast; rfl, zpow_natCast]
      exact_mod_cast this
    have hbelow : (2 : ℚ) ^ ((m.log2 : ℤ) + e) ≤ (a : ℚ) / b := by
      calc (2 : ℚ) ^ ((m.log2 : ℤ) + e) = 2 ^ (m.log2 : ℤ) * 2 ^ e := two_zpow_add _ _
        _ ≤ m * 2 ^ e := by gcongr
        _ ≤ (a : ℚ) / b := hlow
    have habove : (a : ℚ) / b < 2 ^ ((m.log2 : ℤ) + 1 + e) := by
      calc (a : ℚ) / b < (m + 1) * 2 ^ e := hhigh
        _ ≤ 2 ^ ((m.log2 : ℤ) + 1) * 2 ^ e := by gcongr
        _ = 2 ^ ((m.log2 : ℤ) + 1 + e) := (two_zpow_add _ _).symm
    have := two_zpow_lt_iff.1 (hbelow.trans_lt hlt)
    have := two_zpow_lt_iff.1 (hge.trans_lt habove)
    omega

/-- At its exponent the fraction is rounded to at most 53 digits, or to the next power of two, and to 53
digits at least unless it is subnormal. -/
theorem roundHalfEven_bounds (ha : 0 < a) (hb : 0 < b) {r : Nat}
    (hq : q = max (binaryExponent a b) leastExponent)
    (hr : |(a : ℚ) / b / 2 ^ q - r| ≤ 1 / 2) :
    r ≤ 2 ^ 53 ∧ (leastExponent < q → 2 ^ 52 ≤ r) := by
  have hunit := two_zpow_pos q
  obtain ⟨hge, hlt⟩ := binaryExponent_spec ha hb
  obtain ⟨hlow, hhigh⟩ := abs_le.1 hr
  constructor
  · have hbound : (a : ℚ) / b / 2 ^ q < 2 ^ 53 := by
      rw [div_lt_iff₀ hunit]
      calc (a : ℚ) / b < 2 ^ (binaryExponent a b + 53) := hlt
        _ ≤ 2 ^ (53 + q) := two_zpow_le_iff.2 (by omega)
        _ = 2 ^ 53 * 2 ^ q := two_zpow_add 53 q
    have hle : (r : ℚ) < (2 ^ 53 + 1 : Nat) := by
      push_cast
      linarith
    have := Nat.cast_lt.1 hle
    omega
  · intro hleast
    obtain rfl : q = binaryExponent a b := by omega
    have hbound : (2 : ℚ) ^ 52 ≤ (a : ℚ) / b / 2 ^ binaryExponent a b := by
      rw [le_div_iff₀ hunit]
      calc (2 : ℚ) ^ 52 * 2 ^ binaryExponent a b = 2 ^ (52 + binaryExponent a b) :=
            (two_zpow_add 52 _).symm
        _ ≤ (a : ℚ) / b := (two_zpow_le_iff.2 (by omega)).trans hge
    have hle : ((2 ^ 52 : Nat) : ℚ) < (r + 1 : Nat) := by
      push_cast
      linarith
    have := Nat.cast_lt.1 hle
    omega

/-- The fields that rounding ends with, after a carry if there is one. -/
theorem roundWithAccuracy_of_shift {em : ExtendedMantissa} {r : Nat} {f : Int} (s : Sign)
    (hfirst : shiftToTargetExponent Format.binary64 m e accuracy = (em, q))
    (hsecond : shiftToTargetExponent Format.binary64 em.roundedMantissa q .exact =
      (⟨r, false, false⟩, f)) :
    roundWithAccuracy Format.binary64 s m e accuracy =
      if h : r = 0 then .zero s else .finite s r f (Nat.pos_of_ne_zero h) := by
  unfold roundWithAccuracy
  rw [hfirst]
  dsimp only
  rw [hsecond]

/-- **What core rounds is the double nearest to the fraction**, if it was cut off at an exponent that is
not too great. -/
theorem roundWithAccuracy_eq_ofRatio (negative : Bool) (ha : 0 < a) (hb : 0 < b)
    (h : Cut m ((a : ℚ) / b / 2 ^ e) accuracy) (he : e ≤ max (binaryExponent a b) leastExponent) :
    Float.ofModel (.pack (roundWithAccuracy Format.binary64 (modelSign negative) m e accuracy)) =
      ofRatio negative a b := by
  have htarget := targetExponent_of_cut ha hb h he
  generalize hq : max (binaryExponent a b) leastExponent = q at he htarget
  have hleast : leastExponent ≤ q := by omega
  have hcut := cut_shiftRight (cut_ofMantissaAndAccuracy h) (q - e).toNat
  have hunit : (a : ℚ) / b / 2 ^ e / 2 ^ (q - e).toNat = (a : ℚ) / b / 2 ^ q := by
    rw [div_div _ ((2 : ℚ) ^ e), ← zpow_natCast, ← two_zpow_add]
    congr 2
    omega
  have hfirst : shiftToTargetExponent Format.binary64 m e accuracy =
      (ExtendedMantissa.ofMantissaAndAccuracy m accuracy >>> (q - e).toNat, q) := by
    unfold shiftToTargetExponent UnpackedFloat.shiftToExponent
    rw [htarget]
    refine Prod.ext rfl ?_
    show e + ((q - e).toNat : Int) = q
    omega
  rw [hunit] at hcut
  generalize ExtendedMantissa.ofMantissaAndAccuracy m accuracy >>> (q - e).toNat = em at hcut hfirst
  obtain ⟨hround, hodd⟩ : |(a : ℚ) / b / 2 ^ q - em.roundedMantissa| ≤ 1 / 2 ∧
      (em.roundedMantissa % 2 = 1 → |(a : ℚ) / b / 2 ^ q - em.roundedMantissa| < 1 / 2) := hcut.round
  obtain ⟨hle, hleading⟩ := roundHalfEven_bounds ha hb hq.symm hround
  have hratio : ofRatio negative a b = ofMagnitude negative
      (min ((q - leastExponent).toNat * 2 ^ 52 + em.roundedMantissa) infinity) := by
    rw [← ratio_scaled hb] at hround hodd
    unfold ofRatio nearest
    rw [if_neg ha.ne']
    dsimp only
    rw [hq, roundHalfEven_eq (Nat.mul_pos hb (Nat.two_pow_pos _)) hround hodd]
  rw [hratio]
  generalize hr : em.roundedMantissa = r at hle hleading
  rcases Nat.lt_or_eq_of_le hle with hlt | rfl
  · have hsecond := shiftToTargetExponent_of_lt hlt hleast
    rw [← hr] at hsecond
    rw [roundWithAccuracy_of_shift _ hfirst hsecond, hr]
    by_cases hzero : r = 0
    · obtain rfl : q = leastExponent := by
        by_contra hne
        have := hleading (by omega)
        omega
      rw [dif_pos hzero, hzero, Int.sub_self]
      refine ofModel_pack negative (Nat.zero_le _) ?_
      cases negative <;> rfl
    · rw [dif_neg hzero]
      exact ofModel_pack_finite ⟨Nat.pos_of_ne_zero hzero, hlt, hleast, hleading⟩ negative
  · have hsecond := shiftToTargetExponent_carry hleast
    rw [← hr] at hsecond
    have hn : Normalized (2 ^ 52) (q + 1) := ⟨by decide, by decide, by omega, fun _ => le_rfl⟩
    have hindex : (q - leastExponent).toNat * 2 ^ 52 + 2 ^ 53 =
        (q + 1 - leastExponent).toNat * 2 ^ 52 + 2 ^ 52 := by
      omega
    rw [roundWithAccuracy_of_shift _ hfirst hsecond, dif_neg (by decide), hindex]
    exact ofModel_pack_finite hn negative

end Rounding

/-! ## Products -/

section Operations

variable {x y : Float} {s t : Bool} {m n : Nat} {e f : Int}

theorem modelSign_mul (s t : Bool) : modelSign s * modelSign t = modelSign (s ^^ t) := by
  cases s <;> cases t <;> rfl

theorem modelSign_div (s t : Bool) : modelSign s / modelSign t = modelSign (s ^^ t) := by
  cases s <;> cases t <;> rfl

theorem ofModel_pack_zero (negative : Bool) {a : Nat} (ha : a = 0) (b : Nat) :
    Float.ofModel (.pack (.zero (modelSign negative))) = ofRatio negative a b := by
  rw [ofRatio, nearest, if_pos ha]
  refine ofModel_pack negative (Nat.zero_le _) ?_
  cases negative <;> rfl

theorem ratio_shifted (m : Nat) {n : Nat} (hn : 0 < n) (k : Int) :
    ((m * 2 ^ k.toNat : Nat) : ℚ) / (n * 2 ^ (-k).toNat : Nat) = (m : ℚ) / n * 2 ^ k := by
  have hscaled := ratio_scaled (a := m) hn (-k)
  rwa [neg_neg, zpow_neg, div_inv_eq_mul] at hscaled

/-- Where a number with 53 digits before the point is cut off, the exponent is not too great. -/
theorem le_binaryExponent {a b : Nat} (ha : 0 < a) (hb : 0 < b) {k : Int}
    (h : (2 : ℚ) ^ (k + 52) ≤ (a : ℚ) / b) : k ≤ binaryExponent a b := by
  have := two_zpow_lt_iff.1 (h.trans_lt (binaryExponent_spec ha hb).2)
  omega

/-- Unless both factors are subnormal, one of them has 53 digits. -/
theorem two_zpow_le_mul (hm : Normalized m e) (hn : Normalized n f)
    (hnormal : leastExponent < e ∨ leastExponent < f) :
    (2 : ℚ) ^ (e + f + 52) ≤ m * n * 2 ^ (e + f) := by
  have hpos := two_zpow_pos (e + f)
  have hdigits : 2 ^ 52 ≤ m * n := by
    rcases hnormal with he | hf
    · exact (hm.leading he).trans (Nat.le_mul_of_pos_right m hn.pos)
    · exact (hn.leading hf).trans (Nat.le_mul_of_pos_left n hm.pos)
  have hcast : (2 : ℚ) ^ 52 ≤ m * n := by exact_mod_cast hdigits
  calc (2 : ℚ) ^ (e + f + 52) = 2 ^ (52 : ℤ) * 2 ^ (e + f) := by rw [← two_zpow_add, add_comm]
    _ ≤ m * n * 2 ^ (e + f) := mul_le_mul_of_nonneg_right hcast hpos.le

/-- A product with zero is a zero, and signed. -/
theorem unpack_mul_zero (hx : parts x = .finite s m e) (hy : parts y = .finite t n f)
    (hzero : m = 0 ∨ n = 0) :
    UnpackedFloat.mul Format.binary64 x.toModel.unpack y.toModel.unpack =
      .zero (modelSign (s ^^ t)) := by
  rw [← modelSign_mul]
  obtain ⟨-, hu⟩ | ⟨hm, hu⟩ := exists_unpack hx
  · obtain ⟨-, hw⟩ | ⟨_, hw⟩ := exists_unpack hy
    · rw [hu, hw]
      rfl
    · rw [hu, hw]
      rfl
  · obtain ⟨-, hw⟩ | ⟨hn, -⟩ := exists_unpack hy
    · rw [hu, hw]
      rfl
    · omega

/-- A product is the exact one, rounded once. -/
theorem mul_eq_ofRatio (hx : parts x = .finite s m e) (hy : parts y = .finite t n f) :
    x * y = ofRatio (s ^^ t) (m * n * 2 ^ (e + f).toNat) (1 * 2 ^ (-(e + f)).toNat) := by
  have hmodel : x * y =
      Float.ofModel (.pack (UnpackedFloat.mul Format.binary64 x.toModel.unpack y.toModel.unpack)) := rfl
  rw [hmodel]
  by_cases hzero : m = 0 ∨ n = 0
  · rw [unpack_mul_zero hx hy hzero]
    exact ofModel_pack_zero _ (by rw [Nat.mul_eq_zero.2 hzero, Nat.zero_mul]) _
  obtain ⟨hm, hu⟩ := (exists_unpack hx).resolve_left fun h => hzero (.inl h.1)
  obtain ⟨hn, hw⟩ := (exists_unpack hy).resolve_left fun h => hzero (.inr h.1)
  have hround : UnpackedFloat.mul Format.binary64 x.toModel.unpack y.toModel.unpack =
      roundWithAccuracy Format.binary64 (modelSign s * modelSign t) (m * n) (e + f) .exact := by
    rw [hu, hw]
    rfl
  have hratio := ratio_shifted (m * n) Nat.one_pos (e + f)
  have hnum : 0 < m * n * 2 ^ (e + f).toNat := by positivity
  have hden : 0 < 1 * 2 ^ (-(e + f)).toNat := by positivity
  have hnx := (parts_eq_finite hx).2.2.2.2 hm
  have hny := (parts_eq_finite hy).2.2.2.2 hn
  rw [Nat.cast_one, div_one, Nat.cast_mul m n] at hratio
  rw [hround, modelSign_mul]
  refine roundWithAccuracy_eq_ofRatio _ hnum hden ?_ ?_
  · show _ = ((m * n : Nat) : ℚ)
    rw [hratio, mul_div_cancel_right₀ _ (two_zpow_pos _).ne', Nat.cast_mul]
  · by_cases hnormal : leastExponent < e ∨ leastExponent < f
    · have := le_binaryExponent hnum hden (hratio ▸ two_zpow_le_mul hnx hny hnormal)
      omega
    · have := hnx.least
      have := hny.least
      rw [leastExponent] at *
      omega

/-! ## Quotients -/

/-- What division leaves over tells of the rest. -/
theorem cut_accuracyOfFraction (a : Nat) {b : Nat} (hb : 0 < b) :
    Cut (a / b) ((a : ℚ) / b) (UnpackedFloat.accuracyOfFraction (a % b) b) := by
  have hpos : (0 : ℚ) < b := by exact_mod_cast hb
  have hvalue : (a : ℚ) / b = (a / b : Nat) + (a % b : Nat) / b := by
    rw [eq_comm, ← mul_left_inj' hpos.ne', add_mul, div_mul_cancel₀ _ hpos.ne',
      div_mul_cancel₀ _ hpos.ne']
    exact_mod_cast Nat.div_add_mod' a b
  have hmod : ((a % b : Nat) : ℚ) < b := by exact_mod_cast Nat.mod_lt a hb
  rw [hvalue]
  generalize a / b = q
  generalize a % b = r at *
  unfold UnpackedFloat.accuracyOfFraction
  split
  · rename_i hr
    show (q : ℚ) + (r : Nat) / b = q
    rw [hr, Nat.cast_zero, zero_div, add_zero]
  · rename_i hr
    have hrest : (0 : ℚ) < r / b ∧ (r / b : ℚ) < 1 := by
      have : (0 : ℚ) < r := by exact_mod_cast Nat.pos_of_ne_zero hr
      exact ⟨by positivity, (div_lt_one hpos).2 hmod⟩
    cases hc : compare (2 * r) b with
    | lt =>
      have hlt : (2 * r : ℚ) < b := by exact_mod_cast Nat.compare_eq_lt.1 hc
      have : (r / b : ℚ) < 1 / 2 := (div_lt_iff₀ hpos).2 (by linarith)
      exact ⟨by linarith, by linarith⟩
    | eq =>
      have heq : (2 * r : ℚ) = b := by exact_mod_cast Nat.compare_eq_eq.1 hc
      show (q : ℚ) + r / b = q + 1 / 2
      rw [(div_eq_iff hpos.ne').2 (by linarith : (r : ℚ) = 1 / 2 * b)]
    | gt =>
      have hgt : (b : ℚ) < 2 * r := by exact_mod_cast Nat.compare_eq_gt.1 hc
      have : (1 / 2 : ℚ) < r / b := (lt_div_iff₀ hpos).2 (by linarith)
      exact ⟨by linarith, by linarith⟩

/-- The exponent at which a quotient is cut off is not too great. -/
theorem targetExponent_le (hm : 0 < m) (hn : 0 < n) :
    Format.binary64.targetExponent (totalExponent m e - totalExponent n f) ≤
      max (binaryExponent (m * 2 ^ (e - f).toNat) (n * 2 ^ (-(e - f)).toNat)) leastExponent := by
  have hnum : 0 < m * 2 ^ (e - f).toNat := by positivity
  have hden : 0 < n * 2 ^ (-(e - f)).toNat := by positivity
  have hnpos : (0 : ℚ) < n := by exact_mod_cast hn
  obtain ⟨hmlow, -⟩ := log2_bounds hm
  obtain ⟨-, hnhigh⟩ := log2_bounds hn
  have hquotient : (2 : ℚ) ^ ((m.log2 : ℤ) - n.log2 - 1) ≤ m / n := by
    rw [le_div_iff₀ hnpos]
    calc (2 : ℚ) ^ ((m.log2 : ℤ) - n.log2 - 1) * n
      _ ≤ 2 ^ ((m.log2 : ℤ) - n.log2 - 1) * 2 ^ ((n.log2 : ℤ) + 1) := by gcongr
      _ = 2 ^ (m.log2 : ℤ) := by rw [← two_zpow_add]; congr 1; ring
      _ ≤ m := hmlow
  have hlow : (2 : ℚ) ^ ((m.log2 : ℤ) - n.log2 + e - f - 53 + 52) ≤
      (m * 2 ^ (e - f).toNat : Nat) / (n * 2 ^ (-(e - f)).toNat : Nat) := by
    rw [ratio_shifted m hn]
    calc (2 : ℚ) ^ ((m.log2 : ℤ) - n.log2 + e - f - 53 + 52)
      _ = 2 ^ ((m.log2 : ℤ) - n.log2 - 1) * 2 ^ (e - f) := by rw [← two_zpow_add]; congr 1; ring
      _ ≤ m / n * 2 ^ (e - f) := by gcongr
  have := le_binaryExponent hnum hden hlow
  rw [targetExponent_eq, totalExponent, totalExponent]
  omega

/-- A quotient by a double other than zero is the exact one, rounded once. -/
theorem div_eq_ofRatio (hx : parts x = .finite s m e) (hy : parts y = .finite t n f) (hn : 0 < n) :
    x / y = ofRatio (s ^^ t) (m * 2 ^ (e - f).toNat) (n * 2 ^ (-(e - f)).toNat) := by
  have hmodel : x / y =
      Float.ofModel (.pack (UnpackedFloat.div Format.binary64 x.toModel.unpack y.toModel.unpack)) := rfl
  obtain ⟨_, hw⟩ := (exists_unpack hy).resolve_left fun h => hn.ne' h.1
  rw [hmodel]
  obtain ⟨hm, hu⟩ | ⟨hm, hu⟩ := exists_unpack hx
  · have hzero : UnpackedFloat.div Format.binary64 x.toModel.unpack y.toModel.unpack =
        .zero (modelSign (s ^^ t)) := by
      rw [hu, hw, ← modelSign_div]
      rfl
    rw [hzero]
    exact ofModel_pack_zero _ (by rw [hm, Nat.zero_mul]) _
  · have htarget := targetExponent_le (e := e) (f := f) hm hn
    have hround : UnpackedFloat.div Format.binary64 x.toModel.unpack y.toModel.unpack =
        roundWithAccuracy Format.binary64 (modelSign s / modelSign t)
          (UnpackedFloat.divCore Format.binary64 m e n f).1
          (UnpackedFloat.divCore Format.binary64 m e n f).2.1
          (UnpackedFloat.divCore Format.binary64 m e n f).2.2 := by
      rw [hu, hw]
      rfl
    rw [hround, modelSign_div]
    unfold UnpackedFloat.divCore
    dsimp only
    generalize hk : min (e - f)
      (Format.binary64.targetExponent (totalExponent m e - totalExponent n f)) = k
    refine roundWithAccuracy_eq_ofRatio _ (by positivity) (by positivity) ?_ (by omega)
    have hscaled : (m * 2 ^ (e - f).toNat : Nat) / (n * 2 ^ (-(e - f)).toNat : Nat) / (2 : ℚ) ^ k =
        (m <<< (e - f - k).toNat : Nat) / n := by
      have hshift : (2 : ℚ) ^ (e - f) = 2 ^ (e - f - k).toNat * 2 ^ k := by
        rw [← zpow_natCast, ← two_zpow_add]
        congr 1
        omega
      rw [ratio_shifted m hn, Nat.shiftLeft_eq, Nat.cast_mul, Nat.cast_pow, Nat.cast_ofNat, hshift,
        ← mul_assoc, mul_div_cancel_right₀ _ (two_zpow_pos k).ne']
      ring
    rw [hscaled]
    exact cut_accuracyOfFraction _ hn

/-! ## Correct rounding -/

theorem rounds_ofRatio (negative : Bool) (a : Nat) {b : Nat} (hb : 0 < b) :
    Rounds negative ((a : ℚ) / b) (ofRatio negative a b) := by
  obtain ⟨k, hk, hnearest⟩ := nearest_spec a hb
  rw [ofRatio, hnearest]
  exact rounds_ofMagnitude negative (by positivity) hk

/-- **Products are rounded correctly.** -/
theorem rounds_mul (hx : parts x = .finite s m e) (hy : parts y = .finite t n f) :
    Rounds (s ^^ t) (m * 2 ^ e * (n * 2 ^ f)) (x * y) := by
  have hvalue := ratio_shifted (m * n) Nat.one_pos (e + f)
  have hrounds := rounds_ofRatio (s ^^ t) (m * n * 2 ^ (e + f).toNat)
    (b := 1 * 2 ^ (-(e + f)).toNat) (by positivity)
  rw [hvalue, Nat.cast_one, div_one, two_zpow_add, Nat.cast_mul, mul_mul_mul_comm] at hrounds
  rw [mul_eq_ofRatio hx hy]
  exact hrounds

/-- **Quotients are rounded correctly.** -/
theorem rounds_div (hx : parts x = .finite s m e) (hy : parts y = .finite t n f) (hn : 0 < n) :
    Rounds (s ^^ t) (m * 2 ^ e / (n * 2 ^ f)) (x / y) := by
  have hvalue := ratio_shifted m hn (e - f)
  have hrounds := rounds_ofRatio (s ^^ t) (m * 2 ^ (e - f).toNat)
    (b := n * 2 ^ (-(e - f)).toNat) (by positivity)
  rw [hvalue, zpow_sub₀ two_ne_zero, div_mul_div_comm] at hrounds
  rw [div_eq_ofRatio hx hy hn]
  exact hrounds

end Operations

end Formula.Number
