import Formula.Proofs.Number.Nearest
/-!
# Accuracy of rounding

What is rounded to a normal double is off from it by at most one part in `2 ^ 53`, and what is rounded
to a subnormal one by at most half of the least double. Errors of the first kind are counted as factors:
`Close k v w` says that neither of `v` and `w` is less than the other one times `k` such factors. The
counts of the operands of a product or a quotient are added, and one more is due to its rounding.

Results:
* `Close.trans`, `Close.mul`, `Close.div`: what is close to each other.
* `Close.abs_sub_le`: six factors as an error.
* `Rounds.close_or`: the error of one rounding.
* `Approximates.of_rounds`, `Approximates.of_rounds_div`: rounding what is close to a number.
-/
namespace Formula.Number

open Magnitude (IsNearest isNearest_iff)

/-! ## Close numbers -/

/-- The factor that one rounding may change a number by. -/
def roundingFactor : ℚ := 1 - 1 / 2 ^ 53

theorem roundingFactor_pos : 0 < roundingFactor := by
  norm_num [roundingFactor]

theorem roundingFactor_le_one : roundingFactor ≤ 1 := by
  norm_num [roundingFactor]

/-- Neither number is less than the other one after `k` roundings downward. -/
structure Close (k : Nat) (v w : ℚ) : Prop where
  le : v * roundingFactor ^ k ≤ w
  ge : w * roundingFactor ^ k ≤ v

section Close

variable {j k : Nat} {u v w v' w' : ℚ}

theorem roundingFactor_pow_pos (k : Nat) : 0 < roundingFactor ^ k :=
  pow_pos roundingFactor_pos k

theorem Close.refl (v : ℚ) : Close 0 v v := by
  constructor <;> simp

theorem Close.mono (h : Close k v w) (hv : 0 ≤ v) (hw : 0 ≤ w) (hjk : k ≤ j) : Close j v w := by
  have hpow : roundingFactor ^ j ≤ roundingFactor ^ k :=
    pow_le_pow_of_le_one roundingFactor_pos.le roundingFactor_le_one hjk
  exact ⟨(mul_le_mul_of_nonneg_left hpow hv).trans h.le,
    (mul_le_mul_of_nonneg_left hpow hw).trans h.ge⟩

theorem Close.trans (h : Close j u v) (h' : Close k v w) : Close (j + k) u w := by
  have hj := (roundingFactor_pow_pos j).le
  have hk := (roundingFactor_pow_pos k).le
  constructor
  · calc u * roundingFactor ^ (j + k) = u * roundingFactor ^ j * roundingFactor ^ k := by
          rw [pow_add, mul_assoc]
      _ ≤ v * roundingFactor ^ k := mul_le_mul_of_nonneg_right h.le hk
      _ ≤ w := h'.le
  · calc w * roundingFactor ^ (j + k) = w * roundingFactor ^ k * roundingFactor ^ j := by
          rw [pow_add, mul_comm (roundingFactor ^ j), mul_assoc]
      _ ≤ v * roundingFactor ^ j := mul_le_mul_of_nonneg_right h'.ge hj
      _ ≤ u := h.ge

theorem Close.mul (h : Close j v w) (h' : Close k v' w') (hv : 0 ≤ v) (hw : 0 ≤ w) (hv' : 0 ≤ v')
    (hw' : 0 ≤ w') : Close (j + k) (v * v') (w * w') := by
  have hk := (roundingFactor_pow_pos k).le
  constructor
  · calc v * v' * roundingFactor ^ (j + k)
        = v * roundingFactor ^ j * (v' * roundingFactor ^ k) := by
          rw [pow_add, mul_mul_mul_comm]
      _ ≤ w * w' := mul_le_mul h.le h'.le (mul_nonneg hv' hk) hw
  · calc w * w' * roundingFactor ^ (j + k)
        = w * roundingFactor ^ j * (w' * roundingFactor ^ k) := by
          rw [pow_add, mul_mul_mul_comm]
      _ ≤ v * v' := mul_le_mul h.ge h'.ge (mul_nonneg hw' hk) hv

theorem Close.inv (h : Close k v w) (hv : 0 < v) (hw : 0 < w) : Close k v⁻¹ w⁻¹ := by
  constructor
  · rw [inv_mul_le_iff₀ hv, ← div_eq_mul_inv, le_div_iff₀ hw, mul_comm]
    exact h.ge
  · rw [inv_mul_le_iff₀ hw, ← div_eq_mul_inv, le_div_iff₀ hv, mul_comm]
    exact h.le

theorem Close.div (h : Close j v w) (h' : Close k v' w') (hv : 0 ≤ v) (hw : 0 ≤ w) (hv' : 0 < v')
    (hw' : 0 < w') : Close (j + k) (v / v') (w / w') := by
  rw [div_eq_mul_inv, div_eq_mul_inv]
  exact h.mul (h'.inv hv' hw') hv hw (inv_nonneg.2 hv'.le) (inv_nonneg.2 hw'.le)

/-- Two numbers that both begin with `a`, which is large, are close. -/
theorem close_of_between {a : Nat} {unit : ℚ} (ha : 2 ^ 60 ≤ a) (hunit : 0 ≤ unit)
    (hv : a * unit ≤ v ∧ v ≤ (a + 1) * unit) (hw : a * unit ≤ w ∧ w ≤ (a + 1) * unit) :
    Close 1 v w := by
  have hlarge : (2 : ℚ) ^ 60 ≤ a := by exact_mod_cast ha
  have hfactor : ((a : ℚ) + 1) * roundingFactor ≤ a := by
    rw [roundingFactor]
    linarith
  have hstep {y z : ℚ} (hy : y ≤ (a + 1) * unit) (hz : a * unit ≤ z) :
      y * roundingFactor ^ 1 ≤ z := by
    calc y * roundingFactor ^ 1 ≤ (a + 1) * unit * roundingFactor := by
          rw [pow_one]
          exact mul_le_mul_of_nonneg_right hy roundingFactor_pos.le
      _ = (a + 1) * roundingFactor * unit := by ring
      _ ≤ a * unit := mul_le_mul_of_nonneg_right hfactor hunit
      _ ≤ z := hz
  exact ⟨hstep hv.2 hw.1, hstep hw.2 hv.1⟩

/-- Six factors change a number by at most one part in `2 ^ 50`. -/
theorem Close.abs_sub_le (h : Close 6 v w) (hv : 0 ≤ v) : |w - v| ≤ v / 2 ^ 50 := by
  have hlow : 1 - 1 / 2 ^ 50 ≤ roundingFactor ^ 6 := by
    norm_num [roundingFactor]
  have hhigh : 1 ≤ roundingFactor ^ 6 * (1 + 1 / 2 ^ 50) := by
    norm_num [roundingFactor]
  have hge : v * (1 - 1 / 2 ^ 50) ≤ w := (mul_le_mul_of_nonneg_left hlow hv).trans h.le
  have hle : w ≤ v * (1 + 1 / 2 ^ 50) := by
    rw [← mul_le_mul_iff_left₀ (roundingFactor_pow_pos 6)]
    calc w * roundingFactor ^ 6 ≤ v * 1 := h.ge.trans_eq (mul_one v).symm
      _ ≤ v * (roundingFactor ^ 6 * (1 + 1 / 2 ^ 50)) := mul_le_mul_of_nonneg_left hhigh hv
      _ = v * (1 + 1 / 2 ^ 50) * roundingFactor ^ 6 := by ring
  rw [abs_le]
  constructor <;> linarith

end Close

/-! ## The error of one rounding -/

section Nearest

variable {n k : Nat} {v : ℚ}

/-- What is not greater than a magnitude is nearest to none that is greater. -/
theorem Magnitude.IsNearest.le_of_le_value (h : IsNearest n v) (hv : v ≤ value k) : n ≤ k := by
  by_contra hlt
  have hvalue := strictMono_value (not_le.1 hlt)
  have hle := (h k).1
  rw [abs_of_nonneg (sub_nonneg.2 hv), abs_of_nonneg (sub_nonneg.2 (hv.trans hvalue.le))] at hle
  linarith

/-- The nearest magnitude is at most half a unit of its last place away. -/
theorem Magnitude.IsNearest.abs_sub_le (h : IsNearest n v) (hv : 0 ≤ v) :
    |value n - v| ≤ 2 ^ exponent n / 2 := by
  obtain ⟨hlow, hhigh, -⟩ := isNearest_iff.1 h
  rw [half_eq_add] at hhigh
  rw [abs_sub_comm, abs_le]
  refine ⟨?_, by linarith⟩
  cases n with
  | zero =>
    have := two_zpow_pos (exponent 0)
    rw [value_zero]
    linarith
  | succ n =>
    obtain ⟨hmiddle, -⟩ := hlow n rfl
    rw [half_eq_sub] at hmiddle
    have hunit : (2 : ℚ) ^ exponent n ≤ 2 ^ exponent (n + 1) :=
      two_zpow_le_iff.2 (by unfold exponent; omega)
    linarith

/-- A normal magnitude is close to what it is nearest to. -/
theorem Magnitude.IsNearest.close (h : IsNearest n v) (hv : 0 ≤ v) (hn : 2 ^ 52 ≤ n) :
    Close 1 v (value n) := by
  have hsignificand : ((2 ^ 52 : Nat) : ℚ) ≤ significand n := by
    refine Nat.cast_le.2 ?_
    unfold significand
    split <;> omega
  have hunit := two_zpow_pos (exponent n)
  have herror : |value n - v| ≤ value n / 2 ^ 53 := by
    refine (h.abs_sub_le hv).trans ?_
    calc (2 : ℚ) ^ exponent n / 2 = (2 ^ 52 : Nat) * 2 ^ exponent n / 2 ^ 53 := by
          push_cast
          ring
      _ ≤ significand n * 2 ^ exponent n / 2 ^ 53 := by gcongr
  obtain ⟨hge, hle⟩ := abs_le.1 herror
  have hvalue := value_nonneg n
  constructor
  · rw [pow_one, roundingFactor]
    linarith
  · rw [pow_one, roundingFactor]
    linarith

/-- A subnormal magnitude is at most half the least double away. -/
theorem Magnitude.IsNearest.abs_sub_le_of_lt (h : IsNearest n v) (hv : 0 ≤ v) (hn : n < 2 ^ 52) :
    |value n - v| ≤ 2 ^ leastExponent / 2 := by
  have hexponent : exponent n = leastExponent := by
    unfold exponent
    omega
  exact hexponent ▸ h.abs_sub_le hv

end Nearest

section Rounds

variable {negative : Bool} {k : Nat} {u v : ℚ} {x : Float}

theorem Rounds.exists_isNearest (h : Rounds negative v x) (hv : 0 ≤ v) (hlt : v < overflowBound) :
    ∃ n, n < infinity ∧ IsNearest n v ∧ x = ofMagnitude negative n := by
  obtain ⟨n, hn⟩ := Magnitude.exists_isNearest hv
  have hfinite := lt_infinity_of_lt hn hlt
  have hx := h.eq_ofMagnitude hn
  rw [min_eq_left hfinite.le] at hx
  exact ⟨n, hfinite, hn, hx⟩

/-- The error of one rounding: a factor, or at most half of the least double. -/
theorem Rounds.close_or (h : Rounds negative v x) (hv : 0 ≤ v) (hlt : v < overflowBound) :
    ∃ m q, parts x = .finite negative m q ∧
      (Close 1 v (m * 2 ^ q) ∨
        magnitude x < 2 ^ 52 ∧ |m * 2 ^ q - v| ≤ 2 ^ leastExponent / 2) := by
  obtain ⟨n, hfinite, hn, rfl⟩ := h.exists_isNearest hv hlt
  refine ⟨_, _, parts_ofMagnitude_of_lt negative hfinite, ?_⟩
  rw [magnitude_ofMagnitude hfinite.le]
  rcases Nat.lt_or_ge n (2 ^ 52) with hsmall | hlarge
  · exact .inr ⟨hsmall, hn.abs_sub_le_of_lt hv hsmall⟩
  · exact .inl (hn.close hv hlarge)

/-- From one on, there is nothing but the factor. -/
theorem Rounds.close (h : Rounds negative v x) (hv : 1 ≤ v) (hlt : v < overflowBound) :
    ∃ m q, parts x = .finite negative m q ∧ Close 1 v (m * 2 ^ q) := by
  obtain ⟨m, q, hparts, hclose | ⟨hsmall, herror⟩⟩ := h.close_or (by linarith) hlt
  · exact ⟨m, q, hparts, hclose⟩
  · have hvalue : (m * 2 ^ q : ℚ) < Magnitude.value (2 ^ 52) := by
      rw [← (value_magnitude hparts).1]
      exact Magnitude.strictMono_value hsmall
    have hnormal : Magnitude.value (2 ^ 52) = (2 ^ 52 : Nat) * 2 ^ leastExponent := rfl
    have htiny : (2 : ℚ) ^ leastExponent ≤ 2 ^ (-54 : ℤ) := two_zpow_le_iff.2 (by decide)
    have hbound : ((2 ^ 52 : Nat) + 1) * (2 : ℚ) ^ (-54 : ℤ) < 1 := by norm_num
    rw [hnormal] at hvalue
    push_cast at hvalue hbound
    have := (abs_le.1 herror).1
    linarith

/-- What is not greater than a subnormal double is rounded to one. -/
theorem Rounds.abs_sub_le_of_le {y : Float} {m : Nat} {q : Int} (h : Rounds negative v x)
    (hv : 0 ≤ v) (hy : parts y = .finite false m q) (hsmall : magnitude y < 2 ^ 52)
    (hle : v ≤ m * 2 ^ q) :
    ∃ m q, parts x = .finite negative m q ∧ |m * 2 ^ q - v| ≤ 2 ^ leastExponent / 2 := by
  obtain ⟨n, hfinite, hn, rfl⟩ := h.exists_isNearest hv (hle.trans_lt (value_lt_overflowBound hy))
  rw [← (value_magnitude hy).1] at hle
  have hn52 : n < 2 ^ 52 := (hn.le_of_le_value hle).trans_lt hsmall
  exact ⟨_, _, parts_ofMagnitude_of_lt negative hfinite, hn.abs_sub_le_of_lt hv hn52⟩

/-! ## Approximations -/

/-- The double has no sign, and denotes what is close to the number but for one unit of the least
double. -/
def Approximates (k : Nat) (v : ℚ) (x : Float) : Prop :=
  ∃ m q w, parts x = .finite false m q ∧ 0 ≤ w ∧ Close k v w ∧ |m * 2 ^ q - w| ≤ 2 ^ leastExponent

theorem Approximates.mono {j : Nat} (h : Approximates k v x) (hv : 0 ≤ v) (hjk : k ≤ j) :
    Approximates j v x := by
  obtain ⟨m, q, w, hparts, hw, hclose, herror⟩ := h
  exact ⟨m, q, w, hparts, hw, hclose.mono hv hw hjk, herror⟩

theorem Approximates.trans {j : Nat} (h : Close j u v) (h' : Approximates k v x) :
    Approximates (j + k) u x := by
  obtain ⟨m, q, w, hparts, hw, hclose, herror⟩ := h'
  exact ⟨m, q, w, hparts, hw, h.trans hclose, herror⟩

/-- Rounding what is close to a number approximates the number. -/
theorem Approximates.of_rounds (h : Rounds false v x) (hu : 0 ≤ u) (hv : 0 ≤ v)
    (hlt : v < overflowBound) (hclose : Close k u v) : Approximates (k + 1) u x := by
  have hleast := two_zpow_pos leastExponent
  obtain ⟨m, q, hparts, hone | ⟨-, herror⟩⟩ := h.close_or hv hlt
  · refine ⟨m, q, m * 2 ^ q, hparts, by positivity, hclose.trans hone, ?_⟩
    rw [sub_self, abs_zero]
    exact hleast.le
  · exact ⟨m, q, v, hparts, hv, hclose.mono hu hv (Nat.le_succ k), by linarith⟩

/-- A quotient of a subnormal double, which is off by at most half of the least double, by a number
that is not less than one. -/
theorem Approximates.of_rounds_div {y : Float} {m : Nat} {q : Int} {d : ℚ}
    (hy : parts y = .finite false m q) (hsmall : magnitude y < 2 ^ 52) (hv : 0 ≤ v)
    (herror : |m * 2 ^ q - v| ≤ 2 ^ leastExponent / 2) (hd : 1 ≤ d)
    (h : Rounds false (m * 2 ^ q / d) x) (hclose : Close k u (v / d)) : Approximates k u x := by
  have hpos : 0 < d := one_pos.trans_le hd
  have hle : (m * 2 ^ q : ℚ) / d ≤ m * 2 ^ q := div_le_self (by positivity) hd
  obtain ⟨m', q', hparts, hhalf⟩ := h.abs_sub_le_of_le (by positivity) hy hsmall hle
  refine ⟨m', q', v / d, hparts, by positivity, hclose, ?_⟩
  have hquotient : |m * 2 ^ q / d - v / d| ≤ 2 ^ leastExponent / 2 := by
    rw [← sub_div, abs_div, abs_of_pos hpos]
    exact (div_le_self (abs_nonneg _) hd).trans herror
  calc |(m' * 2 ^ q' : ℚ) - v / d|
      ≤ |m' * 2 ^ q' - m * 2 ^ q / d| + |m * 2 ^ q / d - v / d| := abs_sub_le _ _ _
    _ ≤ 2 ^ leastExponent / 2 + 2 ^ leastExponent / 2 := add_le_add hhalf hquotient
    _ = 2 ^ leastExponent := add_halves _

/-- What is approximated with six factors is off by one part in `2 ^ 50` and the least double. -/
theorem Approximates.error_le (h : Approximates 6 v x) (hv : 0 ≤ v) :
    ∃ m q, parts x = .finite false m q ∧
      |(m * 2 ^ q : ℚ) - v| ≤ v / 2 ^ 50 + 2 ^ leastExponent := by
  obtain ⟨m, q, w, hparts, -, hclose, herror⟩ := h
  refine ⟨m, q, hparts, ?_⟩
  calc |(m * 2 ^ q : ℚ) - v| ≤ |m * 2 ^ q - w| + |w - v| := abs_sub_le _ _ _
    _ ≤ 2 ^ leastExponent + v / 2 ^ 50 := add_le_add herror (hclose.abs_sub_le hv)
    _ = v / 2 ^ 50 + 2 ^ leastExponent := add_comm _ _

end Rounds

end Formula.Number
