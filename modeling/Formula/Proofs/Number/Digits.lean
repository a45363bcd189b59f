import Formula.Proofs.Number.Text
/-!
# Digits

A text of digits denotes at least as much as its leading digit alone and less than the next power of ten,
and is divisible by ten when its last digit is a zero. Its significant digits are those between the zeros
at its ends; they are as many as a number needs that denotes the same but for a power of ten.

Results:
* `pow_le_ofDigitChars`, `ofDigitChars_lt`: the number of digits.
* `head?_toDigits`, `getLast?_toDigits`: the ends of the digits of a number.
* `Numeral.exists_value_eq`, `Numeral.length_significant_le`: the number of significant digits.
-/
namespace Formula.Number

variable {ds : List Char}

/-! ## The size of numbers -/

theorem ofDigitChars_cons (c : Char) (ds : List Char) :
    Nat.ofDigitChars 10 (c :: ds) 0 =
      10 ^ ds.length * (c.toNat - 48) + Nat.ofDigitChars 10 ds 0 := by
  rw [Nat.ofDigitChars_cons, Nat.mul_zero, Nat.zero_add, Nat.ofDigitChars_eq_ofDigitChars_zero]
  rfl

theorem ofDigitChars_append_singleton (ds : List Char) (c : Char) :
    Nat.ofDigitChars 10 (ds ++ [c]) 0 = 10 * Nat.ofDigitChars 10 ds 0 + (c.toNat - 48) := by
  rw [Nat.ofDigitChars_append, Nat.ofDigitChars_cons, Nat.ofDigitChars_nil]
  rfl

theorem ofDigitChars_lt (h : ∀ c ∈ ds, c.isDigit = true) :
    Nat.ofDigitChars 10 ds 0 < 10 ^ ds.length := by
  induction ds with
  | nil => exact Nat.one_pos
  | cons c ds ih =>
    obtain ⟨hc, hds⟩ := List.forall_mem_cons.1 h
    have hrest := ih hds
    have hdigit : 10 ^ ds.length * (c.toNat - 48) ≤ 10 ^ ds.length * 9 :=
      Nat.mul_le_mul_left _ (by have := (toNat_of_isDigit hc).2; omega)
    rw [ofDigitChars_cons, List.length_cons, Nat.pow_succ]
    omega

theorem ne_zero_of_isDigit {c : Char} (h : c.isDigit = true) (hne : c ≠ '0') : 49 ≤ c.toNat := by
  have hlow := (toNat_of_isDigit h).1
  have hcode : c.toNat ≠ 48 := fun heq => hne (Char.toNat_inj.1 heq)
  omega

theorem pow_le_ofDigitChars (h : IsDigits ds) (hhead : ds.head? ≠ some '0') :
    10 ^ (ds.length - 1) ≤ Nat.ofDigitChars 10 ds 0 := by
  obtain ⟨c, ds, rfl⟩ := List.exists_cons_of_ne_nil h.ne_nil
  have hne : c ≠ '0' := fun heq => hhead (congrArg some heq)
  have hdigit := ne_zero_of_isDigit (h.isDigit c List.mem_cons_self) hne
  rw [ofDigitChars_cons, List.length_cons, Nat.add_sub_cancel]
  have := Nat.le_mul_of_pos_right (10 ^ ds.length) (show 0 < c.toNat - 48 by omega)
  omega

theorem dvd_ofDigitChars_iff (h : IsDigits ds) :
    10 ∣ Nat.ofDigitChars 10 ds 0 ↔ ds.getLast? = some '0' := by
  obtain rfl | ⟨init, c, rfl⟩ := List.eq_nil_or_concat ds
  · exact absurd rfl h.ne_nil
  · rw [List.concat_eq_append] at h ⊢
    have hc := h.isDigit c (List.mem_append_right _ (List.mem_singleton_self c))
    rw [ofDigitChars_append_singleton, List.getLast?_concat, Option.some.injEq]
    constructor
    · intro hdvd
      by_contra hne
      have := ne_zero_of_isDigit hc hne
      have := (toNat_of_isDigit hc).2
      omega
    · rintro rfl
      exact ⟨_, rfl⟩

/-! ## The ends of the digits of a number -/

theorem head?_toDigits {n : Nat} (hn : 0 < n) : (Nat.toDigits 10 n).head? ≠ some '0' := by
  induction n using Nat.strongRecOn with
  | ind n ih =>
    rcases Nat.lt_or_ge n 10 with hlt | hge
    · have hall : ∀ n < 10, Nat.digitChar n = '0' → n = 0 := by decide
      rw [Nat.toDigits_of_lt_base hlt]
      intro h
      have := hall n hlt (Option.some.inj h)
      omega
    · have hne : Nat.toDigits 10 (n / 10) ≠ [] := Nat.toDigits_ne_nil
      rw [Nat.toDigits_of_base_le (by decide) hge, List.head?_append_of_ne_nil _ hne]
      exact ih (n / 10) (by omega) (by omega)

theorem getLast?_toDigits {n : Nat} (hn : ¬ 10 ∣ n) : (Nat.toDigits 10 n).getLast? ≠ some '0' := by
  rw [ne_eq, ← dvd_ofDigitChars_iff (isDigits_toDigits n), Nat.ofDigitChars_ten_toDigits]
  exact hn

/-! ## Significant digits -/

/-- The digits without the zeros at either end. -/
def significant (ds : List Char) : List Char :=
  ((ds.dropWhile (· == '0')).reverse.dropWhile (· == '0')).reverse

def Numeral.significant (n : Numeral) : List Char := Number.significant (n.whole ++ n.fraction)

theorem exists_significant (ds : List Char) :
    ∃ j k, ds = List.replicate j '0' ++ significant ds ++ List.replicate k '0' := by
  obtain ⟨before, after, hds, hbefore, hafter⟩ := exists_stripped (· == '0') ds
  refine ⟨before.length, after.length, ?_⟩
  rw [← List.eq_replicate_of_mem fun c hc => beq_iff_eq.1 (hbefore c hc),
    ← List.eq_replicate_of_mem fun c hc => beq_iff_eq.1 (hafter c hc)]
  exact hds

theorem ends_significant (ds : List Char) :
    (significant ds).head? ≠ some '0' ∧ (significant ds).getLast? ≠ some '0' := by
  obtain ⟨hhead, hlast⟩ := ends_stripped (· == '0') ds
  exact ⟨fun h => absurd (hhead '0' h) (by decide), fun h => absurd (hlast '0' h) (by decide)⟩

/-- The significant digits make up a numeral but for a power of ten. -/
theorem Numeral.exists_value_eq (n : Numeral) :
    ∃ k : ℤ, n.value = Nat.ofDigitChars 10 n.significant 0 * 10 ^ k := by
  obtain ⟨j, k, hds⟩ := exists_significant (n.whole ++ n.fraction)
  have hdigits : n.digits = 10 ^ k * Nat.ofDigitChars 10 n.significant 0 := by
    rw [Numeral.digits, hds, List.append_assoc, ofDigitChars_zeros_append, ofDigitChars_append_zeros]
    rfl
  refine ⟨k + n.scale, ?_⟩
  rw [Numeral.value, hdigits, zpow_add₀ (by norm_num), zpow_natCast]
  push_cast
  ring

theorem Numeral.isDigit_of_mem_significant {n : Numeral}
    (h : ∀ c ∈ n.whole ++ n.fraction, c.isDigit = true) : ∀ c ∈ n.significant, c.isDigit = true := by
  intro c hc
  obtain ⟨j, k, hds⟩ := exists_significant (n.whole ++ n.fraction)
  refine h c ?_
  rw [hds]
  exact List.mem_append_left _ (List.mem_append_right _ hc)

theorem eq_mul_pow_of_zpow_eq {c d : Nat} {a b : ℤ} (h : (c * 10 ^ a : ℚ) = d * 10 ^ b) (hab : b ≤ a) :
    d = c * 10 ^ (a - b).toNat := by
  have hten : (10 : ℚ) ^ a = 10 ^ (a - b).toNat * 10 ^ b := by
    rw [← zpow_natCast, ← zpow_add₀ (by norm_num)]
    congr 1
    omega
  rw [hten, ← mul_assoc] at h
  have hcast := mul_right_cancel₀ (zpow_ne_zero b (by norm_num)) h
  exact_mod_cast hcast.symm

/-- A number with few digits has no more significant digits, however it is written. -/
theorem Numeral.length_significant_le {n : Numeral} {d s : Nat} {k : ℤ}
    (h : ∀ c ∈ n.whole ++ n.fraction, c.isDigit = true) (hvalue : n.value = d * 10 ^ k)
    (hd : d < 10 ^ s) : n.significant.length ≤ s := by
  by_cases hnil : n.significant = []
  · rw [hnil]
    exact Nat.zero_le s
  have hdigits : IsDigits n.significant := ⟨hnil, isDigit_of_mem_significant h⟩
  obtain ⟨hhead, hlast⟩ := ends_significant (n.whole ++ n.fraction)
  have hlow := pow_le_ofDigitChars hdigits hhead
  have hdvd := mt (dvd_ofDigitChars_iff hdigits).1 hlast
  obtain ⟨j, hj⟩ := n.exists_value_eq
  rw [hvalue] at hj
  rcases le_or_gt k j with hle | hgt
  · have hequal := eq_mul_pow_of_zpow_eq hj.symm hle
    have hle : Nat.ofDigitChars 10 n.significant 0 ≤ d := by
      rw [hequal]
      exact Nat.le_mul_of_pos_right _ (Nat.pow_pos (by decide))
    have := (Nat.pow_lt_pow_iff_right (by decide)).1 ((hlow.trans hle).trans_lt hd)
    omega
  · -- The significant digits do not end with a zero.
    have hequal := eq_mul_pow_of_zpow_eq hj hgt.le
    refine absurd ?_ hdvd
    rw [hequal]
    exact Dvd.dvd.mul_left (dvd_pow_self 10 (by omega)) d

end Formula.Number
