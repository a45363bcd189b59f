import Formula.Proofs.Number.Bits
import Formula.Proofs.Number.Rounding
/-!
# Shortest decimals

The search for the shortest decimal of a double compares natural numbers, which are lengths in a
common unit. In rational numbers, it accepts a grid point only from the interval of the double, and
falls back on the double itself, so the decimal reads back as the double it was made for.

Results:
* `Interval.contains_iff`: the comparisons of the search, in rational numbers.
* `Decimal.spans_shortest`: the shortest decimal is in the interval of its double.
* `parts_eq_finite`, `exists_parts_eq_finite`, `parts_of_not_isFinite`: what finite doubles denote, and
  the others.
* `ofDecimal_eq_of_spans`: a decimal in the interval of a double is read as this double.
-/
namespace Formula.Number

variable {m : Nat} {q : Int}

def Decimal.value (d : Decimal) : ℚ := d.digits * 10 ^ d.exponent

theorem ten_zpow_mul (k : ℤ) : (10 : ℚ) ^ k * 10 ^ (-k).toNat = 10 ^ k.toNat :=
  zpow_mul_pow_toNat (by norm_num) k

theorem Interval.contains_iff (i : Interval) (k : ℤ) (n : Nat) :
    i.contains (10 ^ k.toNat * 2 ^ (2 - q).toNat) (2 ^ (q - 2).toNat * 10 ^ (-k).toNat) n = true ↔
      i.Spans q (n * 10 ^ k) := by
  have hunit : (0 : ℚ) < 10 ^ (-k).toNat * 2 ^ (2 - q).toNat := by positivity
  have hpoint : ((n * (10 ^ k.toNat * 2 ^ (2 - q).toNat) : Nat) : ℚ) =
      n * 10 ^ k * (10 ^ (-k).toNat * 2 ^ (2 - q).toNat) := by
    push_cast
    rw [← ten_zpow_mul]
    ring
  have hend (l : Nat) : ((l * (2 ^ (q - 2).toNat * 10 ^ (-k).toNat) : Nat) : ℚ) =
      l * 2 ^ (q - 2) * (10 ^ (-k).toNat * 2 ^ (2 - q).toNat) := by
    push_cast
    rw [← zpow_mul_pow_toNat two_ne_zero (q - 2), neg_sub]
    ring
  unfold Interval.contains Interval.Spans
  split
  · rw [Bool.and_eq_true, decide_eq_true_eq, decide_eq_true_eq, ← Nat.cast_le (α := ℚ),
      ← Nat.cast_le (α := ℚ), hpoint, hend, hend, mul_le_mul_iff_left₀ hunit,
      mul_le_mul_iff_left₀ hunit]
  · rw [Bool.and_eq_true, decide_eq_true_eq, decide_eq_true_eq, ← Nat.cast_lt (α := ℚ),
      ← Nat.cast_lt (α := ℚ), hpoint, hend, hend, mul_lt_mul_iff_left₀ hunit,
      mul_lt_mul_iff_left₀ hunit]

theorem Interval.contains_of_gridPoint {i : Interval} {tie : Tie} {step scale n : Nat}
    (h : i.gridPoint tie step scale = some n) : i.contains step scale n = true := by
  unfold Interval.gridPoint at h
  dsimp only at h
  split at h
  · cases h
  · cases h
    assumption
  · cases h
    assumption
  · split at h
    · cases h
      assumption
    · cases h
      assumption
    · cases tie
      · cases h
        assumption
      · simp only [Option.some.injEq] at h
        split at h
        · cases h
          assumption
        · cases h
          assumption

/-- The exact decimal is the double itself. -/
theorem Decimal.value_exact (m : Nat) (q : Int) : (Decimal.exact m q).value = m * 2 ^ q := by
  have hten : (10 : ℚ) ^ min q 0 = 2 ^ min q 0 * 5 ^ min q 0 := by
    rw [← mul_zpow]
    norm_num
  have htwo : (2 : ℚ) ^ q = 2 ^ q.toNat * 2 ^ min q 0 := by
    rw [← zpow_natCast, ← two_zpow_add]
    congr 1
    omega
  have hfive : (5 : ℚ) ^ min q 0 * 5 ^ (-q).toNat = 1 := by
    rw [← zpow_natCast, ← zpow_add₀ (by norm_num), show min q 0 + ((-q).toNat : ℤ) = 0 by omega,
      zpow_zero]
  unfold Decimal.value Decimal.exact
  push_cast
  rw [hten, htwo]
  calc (m : ℚ) * 2 ^ q.toNat * 5 ^ (-q).toNat * (2 ^ min q 0 * 5 ^ min q 0)
    _ = m * (2 ^ q.toNat * 2 ^ min q 0) * (5 ^ min q 0 * 5 ^ (-q).toNat) := by ring
    _ = m * (2 ^ q.toNat * 2 ^ min q 0) := by rw [hfive, mul_one]

theorem Interval.spans_self (hm : 0 < m) : (Interval.around m q).Spans q (m * 2 ^ q) := by
  have hpos := two_zpow_pos (q - 2)
  have hlow : ((Interval.around m q).low : ℚ) < 4 * m := by
    exact_mod_cast (Interval.low_bounds hm).2
  have hhigh : 4 * (m : ℚ) < (Interval.around m q).high := by
    have : 4 * m < (Interval.around m q).high := by
      simp [Interval.around]
    exact_mod_cast this
  rw [two_zpow_quarter]
  refine Interval.spans_of_lt ?_ ?_
  · nlinarith
  · nlinarith

/-- Whatever grid is hit first, the decimal found lies in the interval of the double. -/
theorem Decimal.spans_search (tie : Tie) (hm : 0 < m) (n : Nat) (k : ℤ) :
    (Interval.around m q).Spans q (Decimal.search tie m q n k).value := by
  induction n generalizing k with
  | zero =>
    rw [Decimal.search, Decimal.value_exact]
    exact Interval.spans_self hm
  | succ n ih =>
    rw [Decimal.search]
    split
    · rename_i d hd
      exact ((Interval.around m q).contains_iff k d).1 (Interval.contains_of_gridPoint hd)
    · exact ih (k - 1)

theorem Decimal.spans_shortest (tie : Tie) (hm : 0 < m) :
    (Interval.around m q).Spans q (Decimal.shortest tie m q).value :=
  spans_search tie hm _ _

/-! ## Doubles from decimals -/

section Parts

variable {x : Float} {negative : Bool}

/-- The fields of a double that is finite. -/
theorem parts_eq_finite (h : parts x = .finite negative m q) :
    isNegative x = negative ∧ magnitude x = (q - leastExponent).toNat * 2 ^ 52 + m ∧
      magnitude x < infinity ∧ (m = 0 → q = leastExponent) ∧ (0 < m → Normalized m q) := by
  have hlt : magnitude x < 2 ^ 63 := Nat.mod_lt _ (by decide)
  unfold parts Parts.ofMagnitude at h
  dsimp only at h
  split at h
  · split at h <;> cases h
  rename_i htop
  split at h
  · rename_i hzero
    cases h
    rw [infinity, Int.sub_self]
    refine ⟨rfl, ?_, ?_, fun _ => rfl, fun hm => ⟨hm, ?_, ?_, ?_⟩⟩ <;> omega
  · cases h
    rw [infinity, add_sub_cancel_right]
    refine ⟨rfl, ?_, ?_, ?_, fun hm => ⟨hm, ?_, ?_, ?_⟩⟩ <;> omega

theorem exists_parts_eq_finite (h : isFinite x = true) :
    ∃ m q, parts x = .finite (isNegative x) m q := by
  have hlt := of_decide_eq_true h
  rw [infinity] at hlt
  unfold parts Parts.ofMagnitude
  dsimp only
  rw [if_neg (by omega)]
  split
  · exact ⟨_, _, rfl⟩
  · exact ⟨_, _, rfl⟩

theorem parts_of_not_isFinite (hx : isFinite x = false) :
    parts x = .undefined ∨ ∃ negative, parts x = .infinite negative := by
  have hlt : magnitude x < 2 ^ 63 := Nat.mod_lt _ (by decide)
  have hge := of_decide_eq_false hx
  rw [infinity] at hge
  unfold parts Parts.ofMagnitude
  dsimp only
  rw [if_pos (by omega)]
  split
  · exact .inr ⟨_, rfl⟩
  · exact .inl rfl

theorem ofDecimal_eq_of_spans (h : parts x = .finite negative m q) (hm : 0 < m) {d : Nat} {k : ℤ}
    (hd : (Interval.around m q).Spans q (d * 10 ^ k)) : ofDecimal negative d k = x := by
  obtain ⟨hnegative, hmagnitude, hlt, -, hn⟩ := parts_eq_finite h
  rw [ofDecimal, (hn hm).nearestDecimal_eq hd, ← hmagnitude, min_eq_left hlt.le, ← hnegative,
    ofMagnitude_magnitude hlt.le]

theorem ofDecimal_zero (h : parts x = .finite negative 0 q) (k : ℤ) :
    ofDecimal negative 0 k = x := by
  obtain ⟨hnegative, hmagnitude, hlt, hq, -⟩ := parts_eq_finite h
  rw [hq rfl, Int.sub_self] at hmagnitude
  rw [ofDecimal, nearestDecimal, if_pos rfl, ← hnegative,
    show 0 = magnitude x from hmagnitude.symm, ofMagnitude_magnitude hlt.le]

end Parts

end Formula.Number
