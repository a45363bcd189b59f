import Formula.Proofs.Number.Nearest
/-!
# Fewest digits

The search for a shortest decimal meets the coarsest grid that has a point in the interval of the double:
it tries all grids from a power of ten beyond the double downward, and on each of them the two points
next to the double, which are in the interval if any point of the grid is. A decimal with fewer digits
would have a power of ten between itself and the shortest one, and this would be a point of a coarser
grid. So the shortest decimal does not end with a zero, and none that is read as the double has fewer
significant digits.

Results:
* `Interval.not_contains_of_gridPoint`: a grid is passed over only without a point in the interval.
* `Decimal.not_spans_coarser`: no grid coarser than that of the shortest decimal has one.
* `Decimal.digits_lt_of_spans`: no decimal in the interval has fewer digits.
* `spans_of_ofDecimal`: a decimal that is read as a double is in its interval.
-/
namespace Formula.Number

variable {m : Nat} {q : Int}

/-! ## Grids without a point in the interval -/

/-- From a point in the interval to its value, every point is in the interval. -/
theorem Interval.contains_of_le {i : Interval} {step scale n k : Nat}
    (hvalue : i.low * scale < i.value * scale ∧ i.value * scale < i.high * scale)
    (hn : i.contains step scale n = true)
    (hk : n * step ≤ k * step ∧ k * step ≤ i.value * scale ∨
      i.value * scale ≤ k * step ∧ k * step ≤ n * step) : i.contains step scale k = true := by
  unfold contains at hn ⊢
  split at hn
  · rename_i hclosed
    rw [if_pos hclosed]
    simp only [Bool.and_eq_true, decide_eq_true_eq] at hn ⊢
    omega
  · rename_i hopen
    rw [if_neg hopen]
    simp only [Bool.and_eq_true, decide_eq_true_eq] at hn ⊢
    omega

/-- The points next to the value are in the interval if any point is. -/
theorem Interval.not_contains_of_gridPoint {i : Interval} {tie : Tie} {step scale : Nat}
    (hstep : 0 < step) (hvalue : i.low * scale < i.value * scale ∧ i.value * scale < i.high * scale)
    (h : i.gridPoint tie step scale = none) (n : Nat) : i.contains step scale n = false := by
  have hbelow : i.value * scale / step * step ≤ i.value * scale := Nat.div_mul_le_self _ _
  have habove : i.value * scale < (i.value * scale / step + 1) * step := by
    rw [Nat.mul_comm (i.value * scale / step + 1)]
    exact Nat.lt_mul_div_succ _ hstep
  have hneither : i.contains step scale (i.value * scale / step) = false ∧
      i.contains step scale (i.value * scale / step + 1) = false := by
    unfold gridPoint at h
    dsimp only at h
    split at h
    · exact ⟨‹_›, ‹_›⟩
    · cases h
    · cases h
    · split at h
      · cases h
      · cases h
      · cases tie <;> cases h
  rw [Bool.eq_false_iff]
  intro hn
  rcases Nat.lt_or_ge (i.value * scale / step) n with hlt | hge
  · have hle := Nat.mul_le_mul_right step (Nat.succ_le_of_lt hlt)
    rw [contains_of_le hvalue hn (.inr ⟨habove.le, hle⟩)] at hneither
    cases hneither.2
  · have hle := Nat.mul_le_mul_right step hge
    rw [contains_of_le hvalue hn (.inl ⟨hle, hbelow⟩)] at hneither
    cases hneither.1

theorem Interval.Spans.convex {i : Interval} {x y z : ℚ} (hx : i.Spans q x) (hz : i.Spans q z)
    (hxy : x ≤ y) (hyz : y ≤ z) : i.Spans q y := by
  unfold Spans at hx hz ⊢
  split at hx
  · rename_i hclosed
    rw [if_pos hclosed] at hz ⊢
    exact ⟨hx.1.trans hxy, hyz.trans hz.2⟩
  · rename_i hopen
    rw [if_neg hopen] at hz ⊢
    exact ⟨hx.1.trans_le hxy, hyz.trans_lt hz.2⟩

/-- The interval of a double lies between half of it and twice as much. -/
theorem bounds_of_spans (hm : 0 < m) {x : ℚ} (h : (Interval.around m q).Spans q x) :
    (m * 2 ^ q : ℚ) / 2 ≤ x ∧ x ≤ m * 2 ^ q * 3 / 2 := by
  have hpos := two_zpow_pos (q - 2)
  have hone : (1 : ℚ) ≤ m := by exact_mod_cast hm
  have hlow : 4 * (m : ℚ) - 2 ≤ (Interval.around m q).low := by
    have : 4 * m ≤ (Interval.around m q).low + 2 := by
      have := (Interval.low_bounds (q := q) hm).1
      omega
    have : 4 * (m : ℚ) ≤ (Interval.around m q).low + 2 := by exact_mod_cast this
    linarith
  have hhigh : ((Interval.around m q).high : ℚ) = 4 * m + 2 := by
    simp [Interval.around]
  obtain ⟨hge, hle⟩ := h.bounds
  rw [hhigh] at hle
  rw [two_zpow_quarter q]
  constructor
  · nlinarith
  · nlinarith

theorem not_spans_zero (hm : 0 < m) : ¬ (Interval.around m q).Spans q 0 := by
  intro h
  have hpos : (0 : ℚ) < m * 2 ^ q := by
    have := two_zpow_pos q
    positivity
  have hlow := (bounds_of_spans hm h).1
  linarith

/-! ## The search -/

/-- The bound from which grids are tried. -/
theorem two_zpow_le_decimalBound (e : ℤ) : (2 : ℚ) ^ e ≤ 10 ^ decimalBound e := by
  unfold decimalBound
  split
  · rename_i he
    calc (2 : ℚ) ^ e ≤ 2 ^ (3 * ((e + 2) / 3)) := two_zpow_le_iff.2 (by omega)
      _ = (2 ^ (3 : ℤ)) ^ ((e + 2) / 3) := zpow_mul _ _ _
      _ ≤ 10 ^ ((e + 2) / 3) := zpow_le_zpow_left₀ (by omega) (by positivity) (by norm_num)
  · rename_i he
    have hsixteen : (10 : ℚ) ^ (-e / 4) ≤ (2 ^ (4 : ℤ)) ^ (-e / 4) :=
      zpow_le_zpow_left₀ (by omega) (by positivity) (by norm_num)
    calc (2 : ℚ) ^ e ≤ 2 ^ (-(4 * (-e / 4))) := two_zpow_le_iff.2 (by omega)
      _ = ((2 ^ (4 : ℤ)) ^ (-e / 4))⁻¹ := by rw [zpow_neg, zpow_mul]
      _ ≤ (10 ^ (-e / 4))⁻¹ := inv_anti₀ (by positivity) hsixteen
      _ = 10 ^ (-(-e / 4)) := (zpow_neg _ _).symm

/-- No grid coarser than the bound has a point in the interval. -/
theorem not_spans_of_decimalBound_lt (hm : 0 < m) {j : ℤ} (hj : decimalBound (m.log2 + 1 + q) < j)
    (n : Nat) : ¬ (Interval.around m q).Spans q (n * 10 ^ j) := by
  intro h
  have hqpos := two_zpow_pos q
  have hmpos : (0 : ℚ) < m := by exact_mod_cast hm
  obtain ⟨hlow, hhigh⟩ := bounds_of_spans hm h
  have hbelow : (m * 2 ^ q : ℚ) < 10 ^ decimalBound (m.log2 + 1 + q) := by
    calc (m * 2 ^ q : ℚ) < 2 ^ ((m.log2 : ℤ) + 1) * 2 ^ q := by
          have := (log2_bounds hm).2
          gcongr
      _ = 2 ^ ((m.log2 : ℤ) + 1 + q) := (two_zpow_add _ _).symm
      _ ≤ 10 ^ decimalBound (m.log2 + 1 + q) := two_zpow_le_decimalBound _
  have hstep : (10 : ℚ) ^ (decimalBound (m.log2 + 1 + q) + 1) ≤ 10 ^ j :=
    zpow_le_zpow_right₀ (by norm_num) (by omega)
  rw [zpow_add_one₀ (by norm_num)] at hstep
  rcases Nat.eq_zero_or_pos n with rfl | hn
  · rw [Nat.cast_zero, zero_mul] at h
    exact not_spans_zero hm h
  · have hone : (1 : ℚ) ≤ n := by exact_mod_cast hn
    have hpoint : (10 : ℚ) ^ j ≤ n * 10 ^ j := le_mul_of_one_le_left (by positivity) hone
    nlinarith

/-- The first grid that is hit is the coarsest one with a point in the interval. -/
theorem Decimal.not_spans_of_search_lt (tie : Tie) (hm : 0 < m) (steps : Nat) (k : ℤ)
    (hsteps : k ≤ steps + min q 0)
    (hk : ∀ j, k < j → ∀ n : Nat, ¬ (Interval.around m q).Spans q (n * 10 ^ j)) {j : ℤ}
    (hj : (Decimal.search tie m q steps k).exponent < j) (n : Nat) :
    ¬ (Interval.around m q).Spans q (n * 10 ^ j) := by
  induction steps generalizing k with
  | zero =>
    have hexact : (Decimal.search tie m q 0 k).exponent = min q 0 := rfl
    exact hk j (by omega) n
  | succ steps ih =>
    rw [Decimal.search] at hj
    split at hj
    · exact hk j hj n
    · rename_i hnone
      refine ih (k - 1) (by omega) (fun i hi => ?_) hj
      rcases eq_or_lt_of_le (show k ≤ i by omega) with rfl | hlt
      · have hscale : 0 < 2 ^ (q - 2).toNat * 10 ^ (-k).toNat := by positivity
        have hbounds := Interval.low_bounds (q := q) hm
        intro n
        rw [← Interval.contains_iff, Interval.not_contains_of_gridPoint (by positivity)
          ⟨Nat.mul_lt_mul_of_pos_right hbounds.2 hscale, Nat.mul_lt_mul_of_pos_right ?_ hscale⟩ hnone]
        · exact Bool.false_ne_true
        · simp [Interval.around]
      · exact hk i hlt

/-- No grid coarser than that of the shortest decimal has a point in the interval. -/
theorem Decimal.not_spans_coarser (tie : Tie) (hm : 0 < m) {j : ℤ}
    (hj : (Decimal.shortest tie m q).exponent < j) (n : Nat) :
    ¬ (Interval.around m q).Spans q (n * 10 ^ j) :=
  not_spans_of_search_lt tie hm _ _ (by omega) (fun _ => not_spans_of_decimalBound_lt hm) hj n

/-! ## Digits -/

theorem Decimal.digits_pos (tie : Tie) (hm : 0 < m) : 0 < (Decimal.shortest tie m q).digits := by
  have hspans := Decimal.spans_shortest (q := q) tie hm
  rw [Nat.pos_iff_ne_zero]
  intro hzero
  rw [Decimal.value, hzero, Nat.cast_zero, zero_mul] at hspans
  exact not_spans_zero hm hspans

/-- The shortest decimal does not end with a zero. -/
theorem Decimal.not_dvd_digits (tie : Tie) (hm : 0 < m) :
    ¬ 10 ∣ (Decimal.shortest tie m q).digits := by
  rintro ⟨d, hd⟩
  have hspans := Decimal.spans_shortest (q := q) tie hm
  have hvalue : (Decimal.shortest tie m q).value =
      d * 10 ^ ((Decimal.shortest tie m q).exponent + 1) := by
    rw [Decimal.value, hd, zpow_add_one₀ (by norm_num)]
    push_cast
    ring
  rw [hvalue] at hspans
  exact Decimal.not_spans_coarser tie hm (lt_add_one _) d hspans

/-- No decimal in the interval has fewer digits. -/
theorem Decimal.digits_lt_of_spans (tie : Tie) (hm : 0 < m) {d : Nat} {k : ℤ}
    (h : (Interval.around m q).Spans q (d * 10 ^ k)) {s : Nat} (hd : d < 10 ^ s) :
    (Decimal.shortest tie m q).digits < 10 ^ s := by
  have hspans := Decimal.spans_shortest (q := q) tie hm
  have hcoarser {j : ℤ} (hj : (Decimal.shortest tie m q).exponent < j) (n : Nat) :=
    Decimal.not_spans_coarser tie hm hj n
  rw [Decimal.value] at hspans
  generalize (Decimal.shortest tie m q).digits = D at hspans ⊢
  generalize (Decimal.shortest tie m q).exponent = K at hspans hcoarser
  by_contra hle
  have hk : k ≤ K := not_lt.1 fun hlt => hcoarser hlt d h
  have hs : s ≠ 0 := by
    rintro rfl
    have hzero : d = 0 := by omega
    rw [hzero, Nat.cast_zero, zero_mul] at h
    exact not_spans_zero hm h
  -- The power of ten between the two decimals is a point of a coarser grid.
  have hpower : (1 : Nat) * (10 : ℚ) ^ (K + s) = 10 ^ s * 10 ^ K := by
    rw [zpow_add₀ (by norm_num), zpow_natCast]
    push_cast
    ring
  refine hcoarser (show K < K + s by omega) 1 (h.convex hspans ?_ ?_)
  · calc (d : ℚ) * 10 ^ k ≤ (10 ^ s : Nat) * 10 ^ K := by
          have : (d : ℚ) ≤ (10 ^ s : Nat) := by exact_mod_cast hd.le
          have : (10 : ℚ) ^ k ≤ 10 ^ K := zpow_le_zpow_right₀ (by norm_num) hk
          gcongr
      _ = (1 : Nat) * (10 : ℚ) ^ (K + s) := by rw [hpower, Nat.cast_pow, Nat.cast_ofNat]
  · calc (1 : Nat) * (10 : ℚ) ^ (K + s) = (10 ^ s : Nat) * 10 ^ K := by
          rw [hpower, Nat.cast_pow, Nat.cast_ofNat]
      _ ≤ D * 10 ^ K := by
          have : ((10 ^ s : Nat) : ℚ) ≤ D := by exact_mod_cast not_lt.1 hle
          gcongr

/-- A decimal that is read as a double is in its interval. -/
theorem spans_of_ofDecimal {x : Float} {negative s : Bool} (h : parts x = .finite negative m q)
    (hm : 0 < m) {d : Nat} {k : ℤ} (hx : ofDecimal s d k = x) :
    (Interval.around m q).Spans q (d * 10 ^ k) := by
  obtain ⟨-, hmagnitude, hlt, -, hn⟩ := parts_eq_finite h
  obtain ⟨n, hnearest, hdecimal⟩ := nearestDecimal_spec d k
  have hequal : min n infinity = magnitude x := by
    rw [← hx, ofDecimal, hdecimal, magnitude_ofMagnitude (min_le_right _ _)]
  obtain rfl : n = magnitude x := by omega
  rw [hmagnitude] at hnearest
  have hfields := Magnitude.fields_index (hn hm)
  rw [← Magnitude.spans_iff_isNearest (by omega), hfields.1, hfields.2] at hnearest
  exact hnearest

end Formula.Number
