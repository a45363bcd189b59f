import Formula.Proofs.Number.Integral
import Mathlib.Algebra.Order.Archimedean.Basic
import Mathlib.Order.Monotone.Basic
/-!
# The order of magnitudes

The doubles of one sign are ordered as their magnitudes are, also past the greatest finite one when
exponents are thought to go on. The ends of the interval of a double are the middles between it and the
doubles beside it, so the intervals leave no fraction out, but for those that are nearest to zero. Hence
every fraction has exactly one nearest magnitude that is even in a tie.

Results:
* `Magnitude.strictMono_value`: magnitudes are ordered as what they denote.
* `Magnitude.isNearest_iff`: to be nearest is to lie between the middles.
* `Magnitude.spans_iff_isNearest`: the interval of a double has the fractions nearest to it.
* `Magnitude.exists_isNearest`, `Magnitude.IsNearest.unique`: there is one nearest magnitude.
-/
namespace Formula.Number

/-! ## What magnitudes denote -/

namespace Magnitude

def significand (n : Nat) : Nat := if n < 2 ^ 52 then n else 2 ^ 52 + n % 2 ^ 52

def exponent (n : Nat) : Int := (n / 2 ^ 52 - 1 : Nat) + leastExponent

/-- What a magnitude denotes. From `infinity` on, this is what it would denote if exponents went on. -/
def value (n : Nat) : ℚ := significand n * 2 ^ exponent n

variable {n k : Nat}

theorem normalized (hn : 0 < n) : Normalized (significand n) (exponent n) := by
  constructor
  · unfold significand
    split <;> omega
  · unfold significand
    split <;> omega
  · unfold exponent
    omega
  · unfold significand exponent
    split <;> omega

theorem eq_index (n : Nat) :
    (exponent n - leastExponent).toNat * 2 ^ 52 + significand n = n := by
  unfold significand exponent
  split <;> omega

/-- The magnitude of a double with these fields has them. -/
theorem fields_index {m : Nat} {q : Int} (hn : Normalized m q) :
    significand ((q - leastExponent).toNat * 2 ^ 52 + m) = m ∧
      exponent ((q - leastExponent).toNat * 2 ^ 52 + m) = q := by
  have hlt := hn.lt
  have hleast := hn.least
  have hlead := hn.leading
  unfold significand exponent
  constructor
  · split <;> omega
  · omega

theorem value_index {m : Nat} {q : Int} (hn : Normalized m q) :
    value ((q - leastExponent).toNat * 2 ^ 52 + m) = m * 2 ^ q := by
  rw [value, (fields_index hn).1, (fields_index hn).2]

theorem significand_mod_two (n : Nat) : significand n % 2 = n % 2 := by
  unfold significand
  split <;> omega

theorem value_zero : value 0 = 0 := by
  simp [value, significand]

theorem value_one : value 1 = 2 ^ leastExponent := by
  simp [value, significand, exponent]

/-- The next magnitude is one unit of the last place higher. -/
theorem value_succ (n : Nat) : value (n + 1) = value n + 2 ^ exponent n := by
  have hpos := two_zpow_pos (exponent n)
  by_cases hcarry : exponent (n + 1) = exponent n
  · have hsignificand : significand (n + 1) = significand n + 1 := by
      unfold exponent at hcarry
      unfold significand
      split <;> split <;> omega
    rw [value, value, hcarry, hsignificand]
    push_cast
    ring
  · -- The least double of a binade is the one where the exponent changes.
    have hexponent : exponent (n + 1) = exponent n + 1 := by
      unfold exponent at hcarry ⊢
      omega
    have hleading : significand (n + 1) = 2 ^ 52 ∧ significand n = 2 ^ 53 - 1 := by
      unfold exponent at hcarry
      unfold significand
      split <;> split <;> omega
    rw [value, value, hexponent, hleading.1, hleading.2, zpow_add_one₀ two_ne_zero]
    push_cast
    ring

theorem strictMono_value : StrictMono value := by
  refine strictMono_nat_of_lt_succ fun n => ?_
  rw [value_succ]
  exact lt_add_of_pos_right _ (two_zpow_pos _)

theorem value_nonneg (n : Nat) : 0 ≤ value n :=
  value_zero ▸ strictMono_value.monotone n.zero_le

/-- Every fraction is exceeded by a magnitude. -/
theorem exists_lt_value (v : ℚ) : ∃ n, v < value n := by
  have hlinear (n : Nat) : n * 2 ^ leastExponent ≤ value n := by
    induction n with
    | zero => simp [value_zero]
    | succ n ih =>
      have hunit : (2 : ℚ) ^ leastExponent ≤ 2 ^ exponent n :=
        two_zpow_le_iff.2 (by unfold exponent; omega)
      rw [value_succ]
      push_cast
      linarith
  obtain ⟨n, hn⟩ := exists_lt_nsmul (two_zpow_pos leastExponent) v
  rw [nsmul_eq_mul] at hn
  exact ⟨n, hn.trans_le (hlinear n)⟩

/-! ## Intervals -/

def half (n : Nat) : ℚ := (value n + value (n + 1)) / 2

theorem value_lt_half (n : Nat) : value n < half n := by
  have := strictMono_value n.lt_succ_self
  unfold half
  linarith

theorem half_lt_value (n : Nat) : half n < value (n + 1) := by
  have := strictMono_value n.lt_succ_self
  unfold half
  linarith

theorem half_eq_add (n : Nat) : half n = value n + 2 ^ exponent n / 2 := by
  rw [half, value_succ]
  ring

theorem half_eq_sub (n : Nat) : half n = value (n + 1) - 2 ^ exponent n / 2 := by
  rw [half, value_succ]
  ring

theorem high_eq_half (n : Nat) :
    (Interval.around (significand n) (exponent n)).high * 2 ^ (exponent n - 2) = half n := by
  rw [half_eq_add, value, two_zpow_quarter (exponent n)]
  simp only [Interval.around]
  push_cast
  ring

theorem low_eq_half (n : Nat) :
    (Interval.around (significand (n + 1)) (exponent (n + 1))).low * 2 ^ (exponent (n + 1) - 2) =
      half n := by
  have hpos := (normalized n.succ_pos).pos
  rw [Nat.succ_eq_add_one] at hpos
  rw [half_eq_sub, value, two_zpow_quarter (exponent (n + 1))]
  unfold Interval.around
  dsimp only
  split
  · rename_i h
    have hexponent : exponent n = 1 + (exponent (n + 1) - 2) := by
      obtain ⟨hsignificand, hleast⟩ := h
      unfold significand at hsignificand
      unfold exponent at hleast ⊢
      split at hsignificand <;> omega
    rw [hexponent, two_zpow_add, Nat.cast_sub (by omega)]
    push_cast
    ring
  · rename_i h
    have hexponent : exponent n = exponent (n + 1) := by
      unfold significand exponent at h
      unfold exponent
      split at h <;> omega
    rw [hexponent, two_zpow_quarter (exponent (n + 1)), Nat.cast_sub (by omega)]
    push_cast
    ring

/-- The fractions that round to a magnitude lie between the middles beside it. -/
theorem spans_succ_iff {v : ℚ} :
    (Interval.around (significand (n + 1)) (exponent (n + 1))).Spans (exponent (n + 1)) v ↔
      if (n + 1) % 2 = 0 then half n ≤ v ∧ v ≤ half (n + 1) else half n < v ∧ v < half (n + 1) := by
  unfold Interval.Spans
  rw [low_eq_half, high_eq_half]
  simp only [Interval.around, significand_mod_two, decide_eq_true_eq]

/-! ## The nearest magnitude -/

theorem abs_sub_le_iff_middle_le {a b v : ℚ} (h : a < b) : |b - v| ≤ |a - v| ↔ (a + b) / 2 ≤ v := by
  rw [← sq_le_sq]
  constructor
  · intro hsq
    nlinarith
  · intro hmiddle
    nlinarith

theorem abs_sub_le_iff_le_middle {a b v : ℚ} (h : a < b) : |a - v| ≤ |b - v| ↔ v ≤ (a + b) / 2 := by
  rw [← sq_le_sq]
  constructor
  · intro hsq
    nlinarith
  · intro hmiddle
    nlinarith

theorem strictMono_half : StrictMono half := by
  refine strictMono_nat_of_lt_succ fun n => ?_
  exact (half_lt_value n).trans (value_lt_half (n + 1))

/-- No magnitude is nearer to `v`, and none is as near unless this one is even. -/
def IsNearest (n : Nat) (v : ℚ) : Prop :=
  ∀ k, |value n - v| ≤ |value k - v| ∧ (k ≠ n → |value n - v| = |value k - v| → n % 2 = 0)

variable {v : ℚ}

/-- What a magnitude denotes is nearest to no other one. -/
theorem isNearest_value (n : Nat) : IsNearest n (value n) := by
  intro k
  rw [sub_self, abs_zero]
  refine ⟨abs_nonneg _, fun hk htie => absurd ?_ hk⟩
  exact strictMono_value.injective (sub_eq_zero.1 (abs_eq_zero.1 htie.symm))

/-- Only the middles beside a magnitude matter, and there it is even. -/
theorem isNearest_iff : IsNearest n v ↔
    (∀ k, k + 1 = n → half k ≤ v ∧ (half k = v → n % 2 = 0)) ∧
      v ≤ half n ∧ (v = half n → n % 2 = 0) := by
  constructor
  · intro h
    refine ⟨?_, ?_⟩
    · rintro k rfl
      have hlt := strictMono_value k.lt_succ_self
      have hk := h k
      refine ⟨(abs_sub_le_iff_middle_le hlt).1 hk.1, fun heq => hk.2 k.succ_ne_self.symm ?_⟩
      exact le_antisymm hk.1 ((abs_sub_le_iff_le_middle hlt).2 heq.ge)
    · have hlt := strictMono_value n.lt_succ_self
      have hk := h (n + 1)
      refine ⟨(abs_sub_le_iff_le_middle hlt).1 hk.1, fun heq => hk.2 n.succ_ne_self ?_⟩
      exact le_antisymm hk.1 ((abs_sub_le_iff_middle_le hlt).2 heq.ge)
  · rintro ⟨hlow, hhigh, htie⟩ k
    rcases lt_trichotomy k n with hlt | rfl | hgt
    · obtain ⟨j, rfl⟩ := Nat.exists_eq_succ_of_ne_zero (Nat.ne_zero_of_lt hlt)
      obtain ⟨hge, htie⟩ := hlow j rfl
      have hvalue := strictMono_value hlt
      have hmiddle : (value k + value (j + 1)) / 2 ≤ half j := by
        have := strictMono_value.monotone (Nat.le_of_lt_succ hlt)
        unfold half
        linarith
      refine ⟨(abs_sub_le_iff_middle_le hvalue).2 (hmiddle.trans hge), fun _ heq => htie ?_⟩
      exact le_antisymm hge (((abs_sub_le_iff_le_middle hvalue).1 heq.ge).trans hmiddle)
    · exact ⟨le_rfl, fun h => absurd rfl h⟩
    · have hvalue := strictMono_value hgt
      have hmiddle : half n ≤ (value n + value k) / 2 := by
        have := strictMono_value.monotone (Nat.succ_le_of_lt hgt)
        unfold half
        linarith
      refine ⟨(abs_sub_le_iff_le_middle hvalue).2 (hhigh.trans hmiddle), fun _ heq => htie ?_⟩
      exact le_antisymm hhigh (hmiddle.trans ((abs_sub_le_iff_middle_le hvalue).1 heq.ge))

/-- The interval of a double has the fractions nearest to it. -/
theorem spans_iff_isNearest (hn : 0 < n) :
    (Interval.around (significand n) (exponent n)).Spans (exponent n) v ↔ IsNearest n v := by
  obtain ⟨k, rfl⟩ := Nat.exists_eq_succ_of_ne_zero hn.ne'
  rw [Nat.succ_eq_add_one, spans_succ_iff, isNearest_iff]
  split
  · rename_i heven
    simp [heven]
  · rename_i hodd
    simp only [hodd, Nat.add_right_cancel_iff, forall_eq, imp_false, lt_iff_le_and_ne, ne_eq]

theorem isNearest_zero_iff : IsNearest 0 v ↔ v ≤ half 0 := by
  simp [isNearest_iff]

theorem exists_isNearest (hv : 0 ≤ v) : ∃ n, IsNearest n v := by
  classical
  have hexists := exists_lt_value v
  obtain ⟨n, hn⟩ : ∃ n, Nat.find hexists = n + 1 := by
    refine Nat.exists_eq_succ_of_ne_zero fun hzero => ?_
    have := Nat.find_spec hexists
    rw [hzero, value_zero] at this
    exact this.not_ge hv
  have habove : v < value (n + 1) := hn ▸ Nat.find_spec hexists
  have hbelow : value n ≤ v := not_lt.1 (Nat.find_min hexists (hn ▸ n.lt_succ_self))
  have hlow (k : Nat) (hk : k + 1 = n) : half k < v := hk ▸ half_lt_value k |>.trans_le (hk ▸ hbelow)
  have hhigh : v < half (n + 1) := habove.trans (value_lt_half _)
  -- The middle above decides between the two magnitudes beside `v`, and parity decides there.
  rcases lt_trichotomy v (half n) with hlt | heq | hgt
  · refine ⟨n, isNearest_iff.2 ⟨fun k hk => ⟨(hlow k hk).le, fun h => ?_⟩, hlt.le, fun h => ?_⟩⟩
    · exact absurd h (hlow k hk).ne
    · exact absurd h hlt.ne
  · rcases Nat.mod_two_eq_zero_or_one n with heven | hodd
    · exact ⟨n, isNearest_iff.2
        ⟨fun k hk => ⟨(hlow k hk).le, fun _ => heven⟩, heq.le, fun _ => heven⟩⟩
    · have heven : (n + 1) % 2 = 0 := by omega
      refine ⟨n + 1, isNearest_iff.2 ⟨?_, hhigh.le, fun _ => heven⟩⟩
      rintro k hk
      obtain rfl := Nat.add_right_cancel hk
      exact ⟨heq.ge, fun _ => heven⟩
  · refine ⟨n + 1, isNearest_iff.2 ⟨?_, hhigh.le, fun h => absurd h hhigh.ne⟩⟩
    rintro k hk
    obtain rfl := Nat.add_right_cancel hk
    exact ⟨hgt.le, fun h => absurd h hgt.ne⟩

/-- The smaller one of two nearest magnitudes would be the one before the other, and one is odd. -/
theorem IsNearest.le (h : IsNearest n v) (h' : IsNearest k v) : k ≤ n := by
  by_contra hlt
  obtain ⟨j, rfl⟩ := Nat.exists_eq_succ_of_ne_zero (Nat.ne_zero_of_lt (not_le.1 hlt))
  rw [isNearest_iff] at h h'
  obtain ⟨-, hhigh, htie⟩ := h
  obtain ⟨hlow, htie'⟩ := h'.1 j rfl
  have hle : n ≤ j := by omega
  have hhalf := strictMono_half.monotone hle
  have heq : half j = v := le_antisymm hlow (hhigh.trans hhalf)
  have hne : half n = half j := le_antisymm hhalf (hlow.trans hhigh)
  have hj := strictMono_half.injective hne
  have := htie (heq.symm.trans hne.symm)
  have := htie' heq
  omega

theorem IsNearest.unique (h : IsNearest n v) (h' : IsNearest k v) : n = k :=
  Nat.le_antisymm (h'.le h) (h.le h')

end Magnitude

end Formula.Number
