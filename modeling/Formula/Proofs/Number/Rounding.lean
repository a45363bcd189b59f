import Formula.Number.Nearest
import Formula.Number.Shortest
import Mathlib.Algebra.Order.Field.Power
import Mathlib.Data.Rat.Cast.Order
import Mathlib.Tactic.FieldSimp
import Mathlib.Tactic.Linarith
import Mathlib.Tactic.NormNum
import Mathlib.Tactic.Positivity
import Mathlib.Tactic.Ring
/-!
# Rounding

A double that is neither zero nor infinite is `m · 2 ^ q` with a significand of 53 bits, which has its
leading bit unless the exponent is the least one. The fractions that are nearest to it form an interval,
and both the binade and the rounded significand can be read off a fraction in this interval. At the
least double of a binade the interval reaches into the binade before, where rounding carries.

Results:
* `roundHalfEven_eq`: what is at most a half away from a number rounds to it.
* `binaryExponent_spec`: the binade of a fraction.
* `Normalized.nearest_eq`, `Normalized.nearestDecimal_eq`: fractions and decimals in the interval of a
  double are nearest to it.
-/
namespace Formula.Number

/-! ## Powers with integer exponents -/

/-- A power with an integer exponent, cleared of its denominator. -/
theorem zpow_mul_pow_toNat {b : ℚ} (hb : b ≠ 0) (e : ℤ) :
    b ^ e * b ^ (-e).toNat = b ^ e.toNat := by
  rw [← zpow_natCast, ← zpow_natCast, ← zpow_add₀ hb]
  congr 1
  omega

theorem two_zpow_pos (e : ℤ) : (0 : ℚ) < 2 ^ e := zpow_pos two_pos e

theorem two_zpow_add (e f : ℤ) : (2 : ℚ) ^ (e + f) = 2 ^ e * 2 ^ f := zpow_add₀ two_ne_zero e f

theorem two_zpow_le_iff {e f : ℤ} : (2 : ℚ) ^ e ≤ 2 ^ f ↔ e ≤ f :=
  zpow_le_zpow_iff_right₀ one_lt_two

theorem two_zpow_lt_iff {e f : ℤ} : (2 : ℚ) ^ e < 2 ^ f ↔ e < f :=
  zpow_lt_zpow_iff_right₀ one_lt_two

/-- The bound from which on every double is exceeded. -/
theorem two_zpow_le_ten_zpow : (2 : ℚ) ^ (1024 : ℤ) ≤ 10 ^ (310 : ℤ) := by
  calc (2 : ℚ) ^ (1024 : ℤ) ≤ 2 ^ (205 * 5 : ℤ) := two_zpow_le_iff.2 (by decide)
    _ = (2 ^ (205 : ℤ)) ^ (5 : ℤ) := zpow_mul _ _ _
    _ ≤ (10 ^ (62 : ℤ)) ^ (5 : ℤ) := zpow_le_zpow_left₀ (by decide) (by positivity) (by norm_num)
    _ = 10 ^ (310 : ℤ) := (zpow_mul _ _ _).symm

/-- Tenths are below eighths. -/
theorem ten_zpow_le {k : ℤ} (hk : k ≤ 0) : (10 : ℚ) ^ k ≤ 2 ^ (3 * k) := by
  have h := zpow_le_zpow_left₀ (n := -k) (by omega) (by norm_num) (show (8 : ℚ) ≤ 10 by norm_num)
  rw [zpow_neg, zpow_neg] at h
  rw [zpow_mul, show (2 : ℚ) ^ (3 : ℤ) = 8 by norm_num]
  exact (inv_le_inv₀ (by positivity) (by positivity)).1 h

/-- A fraction measured in `2 ^ e`. -/
theorem ratio_scaled {a b : Nat} (hb : 0 < b) (e : ℤ) :
    ((a * 2 ^ (-e).toNat : Nat) : ℚ) / (b * 2 ^ e.toNat : Nat) = a / b / 2 ^ e := by
  have hb' : (b : ℚ) ≠ 0 := by exact_mod_cast hb.ne'
  have he := (two_zpow_pos e).ne'
  push_cast
  rw [← zpow_mul_pow_toNat two_ne_zero e]
  field_simp

/-- A decimal as a fraction. -/
theorem ratio_decimal (d : Nat) (k : ℤ) :
    ((d * 10 ^ k.toNat : Nat) : ℚ) / (10 ^ (-k).toNat : Nat) = d * 10 ^ k := by
  push_cast
  rw [← zpow_mul_pow_toNat (by norm_num) k]
  field_simp

/-! ## The nearest natural number -/

section Half

variable {a b n : Nat} (hb : 0 < b)
include hb

/-- The distance of a fraction from a number, counted in halves of the denominator. -/
theorem abs_ratio_sub : |(a : ℚ) / b - n| = (2 * a - 2 * (n * b : Nat) : ℤ).natAbs / (2 * b) := by
  have hb' : (0 : ℚ) < b := by exact_mod_cast hb
  have hscaled : (a : ℚ) / b - n = (2 * a - 2 * (n * b : Nat) : ℤ) / (2 * b) := by
    push_cast
    field_simp
  rw [hscaled, abs_div, abs_of_pos (show (0 : ℚ) < 2 * b by positivity), Nat.cast_natAbs,
    Int.cast_abs]

theorem abs_ratio_sub_le_half_iff :
    |(a : ℚ) / b - n| ≤ 1 / 2 ↔ (2 * a - 2 * (n * b : Nat) : ℤ).natAbs ≤ b := by
  have hb' : (0 : ℚ) < b := by exact_mod_cast hb
  rw [abs_ratio_sub hb, div_le_iff₀ (by positivity), one_div, inv_mul_cancel_left₀ two_ne_zero,
    Nat.cast_le]

theorem abs_ratio_sub_lt_half_iff :
    |(a : ℚ) / b - n| < 1 / 2 ↔ (2 * a - 2 * (n * b : Nat) : ℤ).natAbs < b := by
  have hb' : (0 : ℚ) < b := by exact_mod_cast hb
  rw [abs_ratio_sub hb, div_lt_iff₀ (by positivity), one_div, inv_mul_cancel_left₀ two_ne_zero,
    Nat.cast_lt]

theorem eq_div_or_of_le (h : (2 * a - 2 * (n * b : Nat) : ℤ).natAbs ≤ b) :
    n = a / b ∨ n = a / b + 1 := by
  have hmod := Nat.mod_lt a hb
  have hdiv := Nat.div_add_mod a b
  have hle : a / b ≤ n := by
    by_contra hlt
    have := Nat.mul_le_mul_left b (show n + 1 ≤ a / b by omega)
    rw [Nat.mul_add, Nat.mul_comm b n] at this
    omega
  have hge : n ≤ a / b + 1 := by
    by_contra hlt
    have := Nat.mul_le_mul_left b (show a / b + 2 ≤ n by omega)
    rw [Nat.mul_add, Nat.mul_comm b n] at this
    omega
  omega

/-- Whatever is at most a half from a number rounds to it, a half only to an even one. -/
theorem roundHalfEven_eq (h : |(a : ℚ) / b - n| ≤ 1 / 2)
    (hodd : n % 2 = 1 → |(a : ℚ) / b - n| < 1 / 2) : roundHalfEven a b = n := by
  rw [abs_ratio_sub_le_half_iff hb] at h
  rw [abs_ratio_sub_lt_half_iff hb] at hodd
  have hmod := Nat.mod_lt a hb
  have hdiv := Nat.div_add_mod a b
  have hproduct : n * b = b * n := Nat.mul_comm n b
  unfold roundHalfEven
  dsimp only
  obtain rfl | rfl := eq_div_or_of_le hb h
  · split
    · rename_i hc
      rfl
    · rename_i hc
      rw [Nat.compare_eq_eq] at hc
      omega
    · rename_i hc
      rw [Nat.compare_eq_gt] at hc
      omega
  · rw [Nat.mul_add] at hproduct
    split
    · rename_i hc
      rw [Nat.compare_eq_lt] at hc
      omega
    · rename_i hc
      rw [Nat.compare_eq_eq] at hc
      omega
    · rfl

end Half

/-! ## The binade of a fraction -/

theorem log2_bounds {n : Nat} (hn : 0 < n) :
    (2 : ℚ) ^ (n.log2 : ℤ) ≤ n ∧ (n : ℚ) < 2 ^ ((n.log2 : ℤ) + 1) := by
  constructor
  · have := Nat.log2_self_le hn.ne'
    rw [zpow_natCast]
    exact_mod_cast this
  · have := @Nat.lt_log2_self n
    rw [show (n.log2 : ℤ) + 1 = (n.log2 + 1 : Nat) by push_cast; rfl, zpow_natCast]
    exact_mod_cast this

/-- At its exponent, a fraction has 53 binary digits before the point. -/
theorem binaryExponent_spec {a b : Nat} (ha : 0 < a) (hb : 0 < b) :
    2 ^ (binaryExponent a b + 52) ≤ (a : ℚ) / b ∧ (a : ℚ) / b < 2 ^ (binaryExponent a b + 53) := by
  have hb' : (0 : ℚ) < b := by exact_mod_cast hb
  obtain ⟨halow, hahigh⟩ := log2_bounds ha
  obtain ⟨hblow, hbhigh⟩ := log2_bounds hb
  have hlow : 2 ^ ((a.log2 : ℤ) - b.log2 - 1) ≤ (a : ℚ) / b := by
    rw [le_div_iff₀ hb']
    calc (2 : ℚ) ^ ((a.log2 : ℤ) - b.log2 - 1) * b
      _ ≤ 2 ^ ((a.log2 : ℤ) - b.log2 - 1) * 2 ^ ((b.log2 : ℤ) + 1) := by gcongr
      _ = 2 ^ (a.log2 : ℤ) := by rw [← two_zpow_add]; congr 1; ring
      _ ≤ a := halow
  have hhigh : (a : ℚ) / b < 2 ^ ((a.log2 : ℤ) - b.log2 + 1) := by
    rw [div_lt_iff₀ hb']
    calc (a : ℚ) < 2 ^ ((a.log2 : ℤ) + 1) := hahigh
      _ = 2 ^ ((a.log2 : ℤ) - b.log2 + 1) * 2 ^ (b.log2 : ℤ) := by
        rw [← two_zpow_add]; congr 1; ring
      _ ≤ 2 ^ ((a.log2 : ℤ) - b.log2 + 1) * b := by gcongr
  have hmiddle : b * 2 ^ ((a.log2 : ℤ) - b.log2 - 53 + 53).toNat ≤
      a * 2 ^ (-((a.log2 : ℤ) - b.log2 - 53 + 53)).toNat ↔
      2 ^ ((a.log2 : ℤ) - b.log2) ≤ (a : ℚ) / b := by
    have hpos := two_zpow_pos ((a.log2 : ℤ) - b.log2)
    have hscaled := ratio_scaled (a := a) hb ((a.log2 : ℤ) - b.log2)
    have hden : (0 : ℚ) < (b * 2 ^ ((a.log2 : ℤ) - b.log2).toNat : Nat) := by positivity
    rw [sub_add_cancel, ← one_le_div₀ hpos, ← hscaled, one_le_div₀ hden, Nat.cast_le]
  unfold binaryExponent
  dsimp only
  split
  · rename_i h
    refine ⟨?_, ?_⟩
    · convert hmiddle.1 h using 2
      omega
    · convert hhigh using 2
      omega
  · rename_i h
    rw [hmiddle, not_le] at h
    refine ⟨?_, ?_⟩
    · convert hlow using 2
      omega
    · rw [sub_add_cancel]
      exact h

/-! ## The interval of a double -/

/-- The significand and exponent of a double that is neither zero nor infinite. -/
structure Normalized (m : Nat) (q : Int) : Prop where
  pos : 0 < m
  lt : m < 2 ^ 53
  least : leastExponent ≤ q
  leading : leastExponent < q → 2 ^ 52 ≤ m

/-- The numbers between the ends of an interval of the double `m · 2 ^ q`. -/
def Interval.Spans (i : Interval) (q : Int) (x : ℚ) : Prop :=
  if i.closed then i.low * 2 ^ (q - 2) ≤ x ∧ x ≤ i.high * 2 ^ (q - 2)
  else i.low * 2 ^ (q - 2) < x ∧ x < i.high * 2 ^ (q - 2)

variable {m : Nat} {q : Int} {x : ℚ}

theorem Interval.Spans.bounds {i : Interval} (h : i.Spans q x) :
    i.low * 2 ^ (q - 2) ≤ x ∧ x ≤ i.high * 2 ^ (q - 2) := by
  unfold Interval.Spans at h
  split at h
  · exact h
  · exact ⟨h.1.le, h.2.le⟩

theorem Interval.spans_of_lt {i : Interval} (h : i.low * 2 ^ (q - 2) < x)
    (h' : x < i.high * 2 ^ (q - 2)) : i.Spans q x := by
  unfold Interval.Spans
  split
  · exact ⟨h.le, h'.le⟩
  · exact ⟨h, h'⟩

/-- Quarters of `2 ^ q`. -/
theorem two_zpow_quarter (q : ℤ) : (2 : ℚ) ^ q = 4 * 2 ^ (q - 2) := by
  rw [show q = q - 2 + 2 by omega, two_zpow_add, add_sub_cancel_right]
  ring

theorem Interval.low_bounds (hm : 0 < m) :
    4 * m - 2 ≤ (Interval.around m q).low ∧ (Interval.around m q).low < 4 * m := by
  unfold Interval.around
  dsimp only
  split <;> omega

theorem abs_sub_of_spans (h : (Interval.around m q).Spans q x) (hm : 0 < m) :
    |x / 2 ^ q - m| ≤ 1 / 2 ∧ (m % 2 = 1 → |x / 2 ^ q - m| < 1 / 2) := by
  have hpos := two_zpow_pos (q - 2)
  have hlow : 4 * (m : ℚ) - 2 ≤ (Interval.around m q).low := by
    have := (Interval.low_bounds (q := q) hm).1
    have : 4 * m ≤ (Interval.around m q).low + 2 := by omega
    have : 4 * (m : ℚ) ≤ (Interval.around m q).low + 2 := by exact_mod_cast this
    linarith
  have hhigh : ((Interval.around m q).high : ℚ) = 4 * m + 2 := by
    simp [Interval.around]
  obtain ⟨hge, hle⟩ := h.bounds
  have hscaled : x / 2 ^ q - m = (x - 4 * m * 2 ^ (q - 2)) / (4 * 2 ^ (q - 2)) := by
    rw [two_zpow_quarter]
    field_simp
  rw [hscaled, abs_le, abs_lt, le_div_iff₀ (by positivity), div_le_iff₀ (by positivity),
    lt_div_iff₀ (by positivity), div_lt_iff₀ (by positivity)]
  refine ⟨⟨?_, ?_⟩, ?_⟩
  · nlinarith
  · nlinarith
  · intro hodd
    unfold Interval.Spans at h
    rw [if_neg (by simp [Interval.around, hodd])] at h
    refine ⟨?_, ?_⟩
    · nlinarith
    · nlinarith

/-- Just below a power of two the doubles lie twice as close. -/
theorem abs_sub_of_spans_below (h : (Interval.around (2 ^ 52) q).Spans q x)
    (hq : leastExponent < q) (hx : x < 2 ^ (q + 52)) :
    |x / 2 ^ (q - 1) - (2 ^ 53 : Nat)| ≤ 1 / 2 := by
  have hpos := two_zpow_pos (q - 2)
  have hlow : ((Interval.around (2 ^ 52) q).low : ℚ) = 2 ^ 54 - 1 := by
    simp only [Interval.around, hq, and_self, if_true]
    norm_num
  have hge := h.bounds.1
  rw [hlow] at hge
  have hx' : x < 2 ^ 54 * 2 ^ (q - 2) := by
    rw [show q + 52 = 54 + (q - 2) by omega, two_zpow_add] at hx
    exact_mod_cast hx
  have hscaled : x / 2 ^ (q - 1) - (2 ^ 53 : Nat) =
      (x - 2 ^ 54 * 2 ^ (q - 2)) / (2 * 2 ^ (q - 2)) := by
    rw [show q - 1 = 1 + (q - 2) by omega, two_zpow_add]
    field_simp
    push_cast
    ring
  rw [hscaled, abs_le, le_div_iff₀ (by positivity), div_le_iff₀ (by positivity)]
  refine ⟨?_, ?_⟩
  · nlinarith
  · nlinarith

/-- A bound below the low end of an interval is one for what it spans. -/
theorem Interval.Spans.two_zpow_le {i : Interval} {n : Nat} {e : ℤ} (h : i.Spans q x)
    (hn : 2 ^ n ≤ i.low) (he : e = n + (q - 2)) : 2 ^ e ≤ x := by
  have hpos := two_zpow_pos (q - 2)
  have hn' : (2 : ℚ) ^ n ≤ i.low := by exact_mod_cast hn
  rw [he, two_zpow_add, zpow_natCast]
  nlinarith [h.bounds.1]

namespace Normalized

variable (hn : Normalized m q)
include hn

/-- Half a unit is below every number that rounds to a double. -/
theorem le_of_spans (h : (Interval.around m q).Spans q x) : 2 ^ (q - 1) ≤ x := by
  have hlow := (Interval.low_bounds (q := q) hn.pos).1
  have hm := hn.pos
  exact h.two_zpow_le (n := 1) (by omega) (by omega)

theorem lt_of_spans (h : (Interval.around m q).Spans q x) : x < 2 ^ (q + 53) := by
  have hpos := two_zpow_pos (q - 2)
  have hhigh : (Interval.around m q).high < 2 ^ 55 := by
    have := hn.lt
    simp only [Interval.around]
    omega
  have hhigh' : ((Interval.around m q).high : ℚ) < 2 ^ (55 : ℤ) := by exact_mod_cast hhigh
  rw [show q + 53 = 55 + (q - 2) by omega, two_zpow_add]
  nlinarith [h.bounds.2]

/-- The exponent of a number in the interval is that of the double, or the one before it when the
double is the least of its binade. -/
theorem exponent_of_spans {e : ℤ} (h : (Interval.around m q).Spans q x)
    (hlow : 2 ^ (e + 52) ≤ x) (hhigh : x < 2 ^ (e + 53)) :
    max e leastExponent = q ∨
      m = 2 ^ 52 ∧ leastExponent < q ∧ max e leastExponent = q - 1 ∧ x < 2 ^ (q + 52) := by
  have hend := (Interval.low_bounds (q := q) hn.pos).1
  have hle := two_zpow_lt_iff.1 (hlow.trans_lt (hn.lt_of_spans h))
  have hleast := hn.least
  by_cases hq : leastExponent < q
  · have hlead := hn.leading hq
    by_cases hx : x < 2 ^ (q + 52)
    · -- Below the binade of the double there is only the low end of its interval.
      have hm : m = 2 ^ 52 := by
        by_contra hne
        exact hx.not_ge (h.two_zpow_le (n := 54) (by omega) (by omega))
      have hlow' : 2 ^ (q + 51) ≤ x := h.two_zpow_le (n := 53) (by omega) (by omega)
      have := two_zpow_lt_iff.1 (hlow'.trans_lt hhigh)
      have := two_zpow_lt_iff.1 (hlow.trans_lt hx)
      refine .inr ⟨hm, hq, ?_, hx⟩
      omega
    · have := two_zpow_lt_iff.1 ((not_lt.1 hx).trans_lt hhigh)
      omega
  · omega

/-- A fraction in the interval of a double is nearest to it. -/
theorem nearest_eq {a b : Nat} (hb : 0 < b) (h : (Interval.around m q).Spans q ((a : ℚ) / b)) :
    nearest a b = min ((q - leastExponent).toNat * 2 ^ 52 + m) infinity := by
  have ha : 0 < a := by
    rw [Nat.pos_iff_ne_zero]
    intro ha
    have := (two_zpow_pos _).trans_le (hn.le_of_spans h)
    rw [ha, Nat.cast_zero, zero_div] at this
    exact lt_irrefl _ this
  obtain ⟨hlow, hhigh⟩ := binaryExponent_spec ha hb
  have hden (e : ℤ) : 0 < b * 2 ^ e.toNat := Nat.mul_pos hb (Nat.two_pow_pos _)
  unfold nearest
  rw [if_neg ha.ne']
  dsimp only
  obtain he | ⟨rfl, hq, he, hx⟩ := hn.exponent_of_spans h hlow hhigh
  · have hround := abs_sub_of_spans h hn.pos
    rw [← ratio_scaled hb] at hround
    rw [he, roundHalfEven_eq (hden q) hround.1 hround.2]
  · have hround := abs_sub_of_spans_below h hq hx
    rw [← ratio_scaled hb] at hround
    have heven : roundHalfEven (a * 2 ^ (-(q - 1)).toNat) (b * 2 ^ (q - 1).toNat) = 2 ^ 53 :=
      roundHalfEven_eq (hden (q - 1)) hround (by simp)
    have hcarry : (q - 1 - leastExponent).toNat * 2 ^ 52 + 2 ^ 53 =
        (q - leastExponent).toNat * 2 ^ 52 + 2 ^ 52 := by
      omega
    rw [he, heven, hcarry]

/-- A decimal in the interval of a double is nearest to it. -/
theorem nearestDecimal_eq {d : Nat} {k : ℤ}
    (h : (Interval.around m q).Spans q (d * 10 ^ k)) :
    nearestDecimal d k = min ((q - leastExponent).toNat * 2 ^ 52 + m) infinity := by
  have hge := hn.le_of_spans h
  have hlt := hn.lt_of_spans h
  have hleast := hn.least
  have hd : d ≠ 0 := by
    intro hd
    have := (two_zpow_pos _).trans_le hge
    rw [hd, Nat.cast_zero, zero_mul] at this
    exact lt_irrefl _ this
  obtain ⟨-, hlog⟩ := log2_bounds (Nat.pos_iff_ne_zero.2 hd)
  unfold nearestDecimal
  rw [if_neg hd]
  split
  · rename_i hk
    have hlarge : (2 : ℚ) ^ (1024 : ℤ) ≤ d * 10 ^ k := by
      have hone : (1 : ℚ) ≤ d := by exact_mod_cast Nat.one_le_iff_ne_zero.2 hd
      calc (2 : ℚ) ^ (1024 : ℤ) ≤ 10 ^ (310 : ℤ) := two_zpow_le_ten_zpow
        _ ≤ 10 ^ k := zpow_le_zpow_right₀ (by norm_num) (by omega)
        _ ≤ d * 10 ^ k := le_mul_of_one_le_left (by positivity) hone
    have hq := two_zpow_lt_iff.1 (hlarge.trans_lt hlt)
    have := hn.leading (by rw [leastExponent]; omega)
    rw [leastExponent, infinity]
    omega
  split
  · rename_i hk
    exfalso
    have hsmall : (d : ℚ) * 10 ^ k < 2 ^ (-1076 : ℤ) := by
      calc (d : ℚ) * 10 ^ k ≤ d * 2 ^ (3 * k) := by
            have hk3 : (10 : ℚ) ^ k ≤ 2 ^ (3 * k) := ten_zpow_le (by omega)
            gcongr
        _ < 2 ^ ((d.log2 : ℤ) + 1) * 2 ^ (3 * k) := by
            have := two_zpow_pos (3 * k)
            gcongr
        _ = 2 ^ ((d.log2 : ℤ) + 1 + 3 * k) := (two_zpow_add _ _).symm
        _ ≤ 2 ^ (-1076 : ℤ) := two_zpow_le_iff.2 (by omega)
    have := two_zpow_lt_iff.1 (hge.trans_lt hsmall)
    rw [leastExponent] at hleast
    omega
  · have hden : 0 < 10 ^ (-k).toNat := Nat.pow_pos (by decide)
    exact hn.nearest_eq hden (ratio_decimal d k ▸ h)

end Normalized

end Formula.Number
