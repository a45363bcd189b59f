import Formula.Json.Numeral
import Formula.Proofs.Number.Accuracy
import Formula.Proofs.Number.Arithmetic
import Formula.Proofs.Number.Digits
/-!
# Scaling in double arithmetic

The digits of a literal that fit into 64 bits are scaled by a power of ten in at most four roundings:
one or two for the power, and as many for the product or the quotients. The outcome is the exact one,
rounded once, when the power is a double itself; and it is always close to the exact one, but for one
unit of the least double. The digits that do not fit are hardly missed.

Results:
* `rounds_powerOfTen`: powers of ten.
* `scaled_scaleUp?`, `scaled_scaleDown`: products and quotients.
* `absorb_eq`, `close_absorb`: the digits that count.
-/
namespace Formula.Json

open Number (Numeral Rounds Close Approximates parts value?)

/-! ## Powers of ten -/

theorem rounds_powerOfTen (k : Nat) : Rounds false (10 ^ k) (powerOfTen k) := by
  have hrounds := Number.rounds_ofRatio false (10 ^ k) Nat.one_pos
  rwa [Nat.cast_one, div_one, Nat.cast_pow, Nat.cast_ofNat] at hrounds

theorem ten_pow_lt_overflowBound {k : Nat} (hk : k ≤ greatestPower) :
    (10 : ℚ) ^ k < Number.overflowBound := by
  have hgreatest : 10 ^ greatestPower + 2 ^ 970 < 2 ^ 1024 := by decide +kernel
  have hcast : ((10 ^ greatestPower + 2 ^ 970 : Nat) : ℚ) < (2 ^ 1024 : Nat) := Nat.cast_lt.2 hgreatest
  rw [Nat.cast_add, Nat.cast_pow, Nat.cast_pow, Nat.cast_pow, Nat.cast_ofNat, Nat.cast_ofNat] at hcast
  have hle : (10 : ℚ) ^ k ≤ 10 ^ greatestPower := pow_le_pow_right₀ (by norm_num) hk
  show (10 : ℚ) ^ k < 2 ^ ((1024 : Nat) : ℤ) - 2 ^ ((970 : Nat) : ℤ)
  rw [zpow_natCast, zpow_natCast]
  exact hle.trans_lt (lt_sub_iff_add_lt.2 hcast)

/-- Numbers of 64 bits are far from overflow. -/
theorem natCast_lt_overflowBound {s : Nat} (h : s < 2 ^ 64) : (s : ℚ) < Number.overflowBound := by
  calc (s : ℚ) < 2 ^ 64 := by exact_mod_cast h
    _ ≤ 10 ^ 64 := pow_le_pow_left₀ (by norm_num) (by norm_num) 64
    _ < Number.overflowBound := ten_pow_lt_overflowBound (by decide)

/-- Up to the greatest one, powers of ten are rounded to finite doubles. -/
theorem parts_powerOfTen {k : Nat} (hk : k ≤ greatestPower) :
    ∃ m q, parts (powerOfTen k) = .finite false m q ∧ (1 : ℚ) ≤ m * 2 ^ q ∧
      Close 1 (10 ^ k) (m * 2 ^ q) := by
  have hlt := ten_pow_lt_overflowBound hk
  have hpower : (1 : ℚ) ≤ 10 ^ k := one_le_pow₀ (by norm_num)
  obtain ⟨m, q, hparts, hclose⟩ := (rounds_powerOfTen k).close hpower hlt
  refine ⟨m, q, hparts, ?_, hclose⟩
  obtain ⟨m', q', hparts', hnearest⟩ := (rounds_powerOfTen k).nearest hlt
  rw [hparts] at hparts'
  obtain ⟨-, rfl, rfl⟩ := Number.Parts.finite.inj hparts'
  have hone : value? (Number.ofInt 1) = some 1 := by
    exact_mod_cast Number.value?_ofInt (n := 1) (by decide)
  -- One is a double, too, and not nearer.
  obtain ⟨hle, -⟩ := hnearest _ _ hone
  have hsigned : Number.signed false m q = m * 2 ^ q := rfl
  have hwith : Number.withSign false (10 ^ k) = 10 ^ k := rfl
  rw [hsigned, hwith, abs_of_nonpos (show (1 : ℚ) - 10 ^ k ≤ 0 by linarith)] at hle
  have := neg_abs_le ((m : ℚ) * 2 ^ q - 10 ^ k)
  linarith

/-- Powers of ten that are doubles are not greater than the greatest one. -/
theorem le_greatestPower {p : Float} {k : Nat} (h : value? p = some ((10 : ℚ) ^ k)) :
    k ≤ greatestPower := by
  obtain ⟨negative, m, q, hparts, hvalue⟩ := Number.value?_eq_some h
  have hlt := Number.value_lt_overflowBound hparts
  have habs : (m * 2 ^ q : ℚ) = 10 ^ k := by
    have hpower : (0 : ℚ) ≤ 10 ^ k := by positivity
    rw [← Number.abs_signed negative, hvalue, abs_of_nonneg hpower]
  have hnext : ((2 ^ 1024 : Nat) : ℚ) ≤ (10 ^ (greatestPower + 1) : Nat) :=
    Nat.cast_le.2 (by decide +kernel)
  rw [Nat.cast_pow, Nat.cast_pow, Nat.cast_ofNat, Nat.cast_ofNat] at hnext
  have hbound : Number.overflowBound < 2 ^ 1024 := by
    show (2 : ℚ) ^ ((1024 : Nat) : ℤ) - 2 ^ ((970 : Nat) : ℤ) < 2 ^ 1024
    rw [zpow_natCast, zpow_natCast]
    exact sub_lt_self _ (by positivity)
  by_contra hk
  have hle : (10 : ℚ) ^ (greatestPower + 1) ≤ 10 ^ k :=
    pow_le_pow_right₀ (by norm_num) (not_le.1 hk)
  exact absurd ((habs ▸ hlt).trans (hbound.trans_le (hnext.trans hle))) (lt_irrefl _)

/-- What a power of ten denotes when it is a double. -/
theorem value_powerOfTen {p : Float} {b k : Nat} {f : Int} (hp : value? p = some ((10 : ℚ) ^ k))
    (h : parts (powerOfTen k) = .finite false b f) : (b * 2 ^ f : ℚ) = 10 ^ k := by
  obtain ⟨b', f', hparts, hvalue⟩ := (rounds_powerOfTen k).exact (by positivity) hp
  rw [h] at hparts
  obtain ⟨-, rfl, rfl⟩ := Number.Parts.finite.inj hparts
  exact hvalue

/-! ## Scaling -/

section Scaling

variable {x y : Float} {m : Nat} {q : Int} {k : Nat}

theorem rounds_mul_powerOfTen (hx : parts x = .finite false m q) (hk : k ≤ greatestPower) :
    ∃ b f, parts (powerOfTen k) = .finite false b f ∧ Close 1 (10 ^ k) (b * 2 ^ f) ∧
      Rounds false (m * 2 ^ q * (b * 2 ^ f)) (x * powerOfTen k) := by
  obtain ⟨b, f, hpower, -, hclose⟩ := parts_powerOfTen hk
  exact ⟨b, f, hpower, hclose, Number.rounds_mul hx hpower⟩

theorem rounds_div_powerOfTen (hx : parts x = .finite false m q) (hk : k ≤ greatestPower) :
    ∃ b f, parts (powerOfTen k) = .finite false b f ∧ (1 : ℚ) ≤ b * 2 ^ f ∧
      Close 1 (10 ^ k) (b * 2 ^ f) ∧ Rounds false (m * 2 ^ q / (b * 2 ^ f)) (x / powerOfTen k) := by
  obtain ⟨b, f, hpower, hone, hclose⟩ := parts_powerOfTen hk
  have hb : 0 < b := by
    rw [Nat.pos_iff_ne_zero]
    rintro rfl
    rw [Nat.cast_zero, zero_mul] at hone
    linarith
  exact ⟨b, f, hpower, hone, hclose, Number.rounds_div hx hpower hb⟩

/-- The outcome of scaling a double without a sign by the power of ten `10 ^ k`: it has no sign either,
it approximates the exact outcome, and if the double is zero or the power a double, it is the exact
outcome, rounded once. -/
structure Scaled (v : ℚ) (k : Int) (y : Float) : Prop where
  approximates : Approximates 4 (v * 10 ^ k) y
  rounds : v = 0 ∨ (∃ p, value? p = some ((10 : ℚ) ^ k.natAbs)) → Rounds false (v * 10 ^ k) y

theorem parts_zero : parts (0 : Float) = .finite false 0 Number.leastExponent := by decide

theorem rounds_zero {negative : Bool} (hx : parts x = .finite negative 0 q) : Rounds negative 0 x := by
  have hrounds := Number.rounds_ofDecimal negative 0 0
  rwa [Number.ofDecimal_zero hx, Nat.cast_zero, zero_mul] at hrounds

/-- A zero approximates what is not greater than the least double. -/
theorem approximates_zero {v : ℚ} (hx : parts x = .finite false 0 q) (hv : 0 ≤ v)
    (hle : v ≤ 2 ^ Number.leastExponent) : Approximates 0 v x := by
  refine ⟨0, q, v, hx, hv, Close.refl v, ?_⟩
  rwa [Nat.cast_zero, zero_mul, zero_sub, abs_neg, abs_of_nonneg hv]

theorem scaled_scaleUp? (hx : parts x = .finite false m q) (h : scaleUp? x k = some y) :
    Scaled (m * 2 ^ q) k y := by
  have hnonneg : (0 : ℚ) ≤ m * 2 ^ q := by positivity
  unfold scaleUp? at h
  split at h
  · rename_i hk
    obtain ⟨b, f, hpower, hclose, hrounds⟩ := rounds_mul_powerOfTen hx hk
    dsimp only at h
    split at h
    · rename_i hfinite
      cases h
      rw [← zpow_natCast] at hclose
      have hlt : (m * 2 ^ q * (b * 2 ^ f) : ℚ) < Number.overflowBound := by
        refine not_le.1 fun hge => ?_
        obtain ⟨m', q', hparts⟩ := Number.exists_parts_eq_finite hfinite
        rw [hrounds.overflow hge] at hparts
        cases hparts
      constructor
      · have hproduct := (Close.refl (m * 2 ^ q : ℚ)).mul hclose hnonneg hnonneg (by positivity)
          (by positivity)
        exact (Approximates.of_rounds hrounds (by positivity) (by positivity) hlt hproduct).mono
          (by positivity) (by decide)
      · rintro (hzero | ⟨p, hp⟩)
        · rw [hzero, zero_mul] at hrounds ⊢
          exact hrounds
        · rw [Int.natAbs_natCast] at hp
          rw [zpow_natCast, ← value_powerOfTen hp hpower]
          exact hrounds
    · cases h
  · split at h
    · rename_i hk hzero
      cases h
      rw [Number.beq_iff_same, hx, parts_zero] at hzero
      obtain ⟨rfl, -, -⟩ := hzero
      have hpos := Number.two_zpow_pos Number.leastExponent
      rw [Nat.cast_zero, zero_mul]
      refine ⟨?_, fun _ => ?_⟩
      · rw [zero_mul]
        exact (approximates_zero hx le_rfl hpos.le).mono le_rfl (by decide)
      · rw [zero_mul]
        exact rounds_zero hx
    · cases h

/-- Two divisions, if the first one has a normal quotient or a subnormal one. -/
theorem approximates_div_div {b n : Nat} {f : Int} (hx : parts x = .finite false m q)
    (hb : (1 : ℚ) ≤ b * 2 ^ f) (hclose : Close 1 (10 ^ k) (b * 2 ^ f))
    (hfirst : Rounds false (m * 2 ^ q / (b * 2 ^ f)) y) (hn : n ≤ greatestPower) :
    Approximates 4 (m * 2 ^ q * 10 ^ (-(k + n : Nat) : Int)) (y / powerOfTen n) := by
  have hnonneg : (0 : ℚ) ≤ m * 2 ^ q := by positivity
  have hpos : (0 : ℚ) < b * 2 ^ f := one_pos.trans_le hb
  have hlt : (m * 2 ^ q / (b * 2 ^ f) : ℚ) < Number.overflowBound :=
    (div_le_self hnonneg hb).trans_lt (Number.value_lt_overflowBound hx)
  obtain ⟨m', q', hparts, herror⟩ := hfirst.close_or (by positivity) hlt
  obtain ⟨b', f', -, hone, hclose', hsecond⟩ := rounds_div_powerOfTen hparts hn
  have hpos' : (0 : ℚ) < b' * 2 ^ f' := one_pos.trans_le hone
  have hexact : (m * 2 ^ q * 10 ^ (-(k + n : Nat) : Int) : ℚ) = m * 2 ^ q / 10 ^ k / 10 ^ n := by
    rw [zpow_neg, zpow_natCast, pow_add, div_div, div_eq_mul_inv]
  have hquotient : Close 1 ((m * 2 ^ q : ℚ) / 10 ^ k) (m * 2 ^ q / (b * 2 ^ f)) :=
    (Close.refl _).div hclose hnonneg hnonneg (by positivity) hpos
  rw [hexact]
  obtain hnear | ⟨hsmall, hhalf⟩ := herror
  · have hlt' : (m' * 2 ^ q' / (b' * 2 ^ f') : ℚ) < Number.overflowBound :=
      (div_le_self (by positivity) hone).trans_lt (Number.value_lt_overflowBound hparts)
    exact Approximates.of_rounds hsecond (by positivity) (by positivity) hlt'
      ((hquotient.trans hnear).div hclose' (by positivity) (by positivity) (by positivity) hpos')
  · have htwice := hquotient.div hclose' (by positivity) (by positivity) (by positivity) hpos'
    exact (Approximates.of_rounds_div hparts hsmall (by positivity) hhalf hone hsecond htwice).mono
      (by positivity) (by decide)

/-- Beyond two divisions, nothing is left of a number of 64 bits. -/
theorem le_least_of_greatestPower_lt {v : ℚ} (hv : v ≤ 2 ^ 65) (hk : 2 * greatestPower < k) :
    v * 10 ^ (-(k : Int)) ≤ 2 ^ Number.leastExponent := by
  have hpower : (2 : ℚ) ^ 65 * 2 ^ 1074 ≤ 10 ^ k := by
    calc (2 : ℚ) ^ 65 * 2 ^ 1074 = 2 ^ (65 + 1074) := (pow_add _ _ _).symm
      _ ≤ 2 ^ k * 2 ^ k := by
          rw [← pow_add]
          exact pow_le_pow_right₀ (by norm_num) (by unfold greatestPower at hk; omega)
      _ = (2 * 2) ^ k := (mul_pow _ _ _).symm
      _ ≤ 10 ^ k := pow_le_pow_left₀ (by norm_num) (by norm_num) k
  have hleast : (2 : ℚ) ^ Number.leastExponent = (2 ^ 1074)⁻¹ := by
    rw [← zpow_natCast, ← zpow_neg]
    rfl
  rw [zpow_neg, zpow_natCast, hleast, ← div_eq_mul_inv, div_le_iff₀ (by positivity),
    inv_mul_eq_div, le_div_iff₀ (by positivity)]
  exact (mul_le_mul_of_nonneg_right hv (by positivity)).trans hpower

theorem scaled_scaleDown (hx : parts x = .finite false m q) (hlarge : (m * 2 ^ q : ℚ) ≤ 2 ^ 65)
    (k : Nat) : Scaled (m * 2 ^ q) (-k) (scaleDown x k) := by
  have hnonneg : (0 : ℚ) ≤ m * 2 ^ q := by positivity
  unfold scaleDown
  split
  · rename_i hk
    obtain ⟨b, f, hpower, hone, hclose, hrounds⟩ := rounds_div_powerOfTen hx hk
    have hpos : (0 : ℚ) < b * 2 ^ f := one_pos.trans_le hone
    have hlt : (m * 2 ^ q / (b * 2 ^ f) : ℚ) < Number.overflowBound :=
      (div_le_self hnonneg hone).trans_lt (Number.value_lt_overflowBound hx)
    constructor
    · rw [zpow_neg, zpow_natCast, ← div_eq_mul_inv]
      have hquotient := (Close.refl (m * 2 ^ q : ℚ)).div hclose hnonneg hnonneg (by positivity) hpos
      exact (Approximates.of_rounds hrounds (by positivity) (by positivity) hlt hquotient).mono
        (by positivity) (by decide)
    · rintro (hzero | ⟨p, hp⟩)
      · rw [hzero, zero_div] at hrounds
        rwa [hzero, zero_mul]
      · rw [Int.natAbs_neg, Int.natAbs_natCast] at hp
        rw [zpow_neg, zpow_natCast, ← div_eq_mul_inv, ← value_powerOfTen hp hpower]
        exact hrounds
  · rename_i hgreater
    have hinexact : ¬ ∃ p, value? p = some ((10 : ℚ) ^ (-(k : Int)).natAbs) := by
      rintro ⟨p, hp⟩
      rw [Int.natAbs_neg, Int.natAbs_natCast] at hp
      exact hgreater (le_greatestPower hp)
    split
    · rename_i htwice
      obtain ⟨b, f, -, hone, hclose, hfirst⟩ := rounds_div_powerOfTen hx (Nat.le_refl greatestPower)
      constructor
      · have htwo := approximates_div_div (n := k - greatestPower) hx hone hclose hfirst (by omega)
        rwa [show greatestPower + (k - greatestPower) = k by omega] at htwo
      · rintro (hzero | hpower)
        · rw [hzero, zero_div] at hfirst
          have hunderflow := hfirst.underflow (by positivity)
          obtain ⟨b', f', -, -, -, hsecond⟩ :=
            rounds_div_powerOfTen (k := k - greatestPower) hunderflow (by omega)
          rw [Nat.cast_zero, zero_mul, zero_div] at hsecond
          rwa [hzero, zero_mul]
        · exact absurd hpower hinexact
    · constructor
      · have hle := le_least_of_greatestPower_lt (k := k) hlarge (by omega)
        exact (approximates_zero parts_zero (by positivity) hle).mono (by positivity) (by decide)
      · rintro (hzero | hpower)
        · rw [hzero, zero_mul]
          exact rounds_zero parts_zero
        · exact absurd hpower hinexact

end Scaling

/-! ## Digits -/

section Digits

variable {s : Nat} {cs : List Char}

theorem le_ofDigitChars (s : Nat) (cs : List Char) : s ≤ Nat.ofDigitChars 10 cs s := by
  rw [Nat.ofDigitChars_eq_ofDigitChars_zero]
  exact (Nat.le_mul_of_pos_left s (Nat.pow_pos (by decide))).trans (Nat.le_add_right _ _)

/-- All digits are appended if there is room for them. -/
theorem absorb_of_lt (h : Nat.ofDigitChars 10 cs s < 2 ^ 64) :
    absorb s cs = (Nat.ofDigitChars 10 cs s, []) := by
  induction cs generalizing s with
  | nil => rfl
  | cons c cs ih =>
    have hsplit : Nat.ofDigitChars 10 (c :: cs) s =
        Nat.ofDigitChars 10 cs (Nat.ofDigitChars 10 [c] s) := rfl
    rw [hsplit] at h ⊢
    rw [absorb, if_pos ((le_ofDigitChars _ cs).trans_lt h), ih h]

theorem absorb_lt (cs : List Char) (h : s < 2 ^ 64) : (absorb s cs).1 < 2 ^ 64 := by
  induction cs generalizing s with
  | nil => exact h
  | cons c cs ih =>
    rw [absorb]
    split
    · rename_i hnext
      exact ih hnext
    · exact h

/-- Digits are appended from the front, and left over only when the significand is large. -/
theorem absorb_eq {t : Nat} {rest : List Char} (hcs : ∀ c ∈ cs, c.isDigit = true)
    (h : absorb s cs = (t, rest)) :
    ∃ used, cs = used ++ rest ∧ t = Nat.ofDigitChars 10 used s ∧ (rest ≠ [] → 2 ^ 60 ≤ t) := by
  induction cs generalizing s with
  | nil =>
    cases h
    exact ⟨[], rfl, rfl, fun hne => absurd rfl hne⟩
  | cons c cs ih =>
    obtain ⟨hc, hcs⟩ := List.forall_mem_cons.1 hcs
    rw [absorb] at h
    split at h
    · obtain ⟨used, rfl, rfl, hlarge⟩ := ih hcs h
      exact ⟨c :: used, rfl, rfl, hlarge⟩
    · rename_i hfull
      cases h
      refine ⟨[], rfl, rfl, fun _ => ?_⟩
      have hnext : Nat.ofDigitChars 10 [c] t = 10 * t + (c.toNat - 48) := rfl
      have hdigit := (Number.toNat_of_isDigit hc).2
      omega

/-- A number lies between its leading digits and the next number of as many digits, in their unit. -/
theorem ofDigitChars_between (hcs : ∀ c ∈ cs, c.isDigit = true) (s : Nat) (e : ℤ) :
    (s : ℚ) * 10 ^ (cs.length + e) ≤ Nat.ofDigitChars 10 cs s * 10 ^ e ∧
      Nat.ofDigitChars 10 cs s * 10 ^ e ≤ ((s : ℚ) + 1) * 10 ^ (cs.length + e) := by
  have hrest : (Nat.ofDigitChars 10 cs 0 : ℚ) ≤ 10 ^ cs.length := by
    exact_mod_cast (Number.ofDigitChars_lt hcs).le
  rw [Nat.ofDigitChars_eq_ofDigitChars_zero, zpow_add₀ (by norm_num), zpow_natCast, ← mul_assoc,
    ← mul_assoc]
  push_cast
  constructor
  · refine mul_le_mul_of_nonneg_right ?_ (by positivity)
    have hzero : (0 : ℚ) ≤ Nat.ofDigitChars 10 cs 0 := Nat.cast_nonneg _
    linarith
  · refine mul_le_mul_of_nonneg_right ?_ (by positivity)
    linarith

/-- What is left of a literal is close to it: either all digits are appended, or so many that those
that are not hardly matter, nor where they stand. -/
theorem close_absorb {n : Numeral} {a t : Nat} {surplus dropped : List Char}
    (hdigits : ∀ c ∈ n.whole ++ n.fraction, c.isDigit = true)
    (hwhole : absorb 0 n.whole = (a, surplus)) (hfraction : absorb a n.fraction = (t, dropped)) :
    Close 1 n.value (t * 10 ^ (n.exponent.getD 0 + surplus.length -
      (n.fraction.length - dropped.length : Nat) : Int)) := by
  obtain ⟨hw, hf⟩ := List.forall_mem_append.1 hdigits
  obtain ⟨used, hwhole', ha, hsurplus⟩ := absorb_eq hw hwhole
  obtain ⟨used', hfraction', ht, hdropped⟩ := absorb_eq hf hfraction
  have hcount : n.fraction.length - dropped.length = used'.length := by
    rw [hfraction', List.length_append, Nat.add_sub_cancel]
  have hall : n.digits = Nat.ofDigitChars 10 (surplus ++ n.fraction) a := by
    rw [Numeral.digits, hwhole', List.append_assoc, ha]
    exact Nat.ofDigitChars_append _
  rw [hcount, Numeral.value, Numeral.scale, hall]
  generalize n.exponent.getD 0 = e
  by_cases hnone : surplus = []
  · subst hnone
    have hrest : Nat.ofDigitChars 10 ([] ++ n.fraction) a = Nat.ofDigitChars 10 dropped t := by
      rw [List.nil_append, hfraction', ht]
      exact Nat.ofDigitChars_append _
    have hd : ∀ c ∈ dropped, c.isDigit = true := by
      rw [hfraction'] at hf
      exact (List.forall_mem_append.1 hf).2
    have hbetween := ofDigitChars_between hd t (e - n.fraction.length)
    have hunit : (dropped.length + (e - n.fraction.length) : Int) = e + 0 - used'.length := by
      rw [hfraction', List.length_append]
      omega
    rw [hunit] at hbetween
    rw [hrest]
    by_cases hexact : dropped = []
    · subst hexact
      rw [List.length_nil, Nat.cast_zero, zero_add] at hunit
      rw [hunit]
      exact (Close.refl _).mono (by positivity) (by positivity) (by decide)
    · exact Number.close_of_between (hdropped hexact) (by positivity) hbetween
        ⟨le_rfl, mul_le_mul_of_nonneg_right (by linarith) (by positivity)⟩
  · have hs : ∀ c ∈ surplus ++ n.fraction, c.isDigit = true := by
      rw [hwhole'] at hw
      exact List.forall_mem_append.2 ⟨(List.forall_mem_append.1 hw).2, hf⟩
    have hu : ∀ c ∈ used', c.isDigit = true := by
      rw [hfraction'] at hf
      exact (List.forall_mem_append.1 hf).1
    have hvalue := ofDigitChars_between hs a (e - n.fraction.length)
    have hleft := ofDigitChars_between hu a (e + surplus.length - used'.length)
    have hunit : ((surplus ++ n.fraction).length + (e - n.fraction.length) : Int) =
        e + surplus.length := by
      rw [List.length_append]
      push_cast
      omega
    have hunit' : (used'.length + (e + surplus.length - used'.length) : Int) = e + surplus.length := by
      omega
    rw [hunit] at hvalue
    rw [hunit', ← ht] at hleft
    exact Number.close_of_between (hsurplus hnone) (by positivity) hvalue hleft

end Digits

end Formula.Json
