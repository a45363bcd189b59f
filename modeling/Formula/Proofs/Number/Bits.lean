import Formula.Number.Nearest
import Formula.Proofs.Number.Equality
/-!
# Doubles from bit patterns

Core packs the fields of its logical model into a bit pattern and unpacks them again; only the patterns
of undefined numbers become another one that way. So a double made of a sign and a magnitude has this
sign and this magnitude.

Results:
* `toBits_ofBits`: the pattern of a double made from a pattern.
* `magnitude_ofMagnitude`, `isNegative_ofMagnitude`: the sign and the magnitude of a double.
* `ofMagnitude_magnitude`: the double of its own sign and magnitude.
* `isFinite_ofInt`: integers of 64 bits are nearest to finite doubles.
-/
namespace Formula.Number

open Float.Model (Format)
open Float.Model.UnpackedFloat (Sign unpack pack packComponents unpackMantissa unpackExponent
  unpackSign)

theorem toNat_packComponents (s : Sign) (e : BitVec 11) (m : BitVec 52) :
    (packComponents Format.binary64 s e m).toNat =
      s.toBitVec.toNat * 2 ^ 63 + e.toNat * 2 ^ 52 + m.toNat := by
  show (s.toBitVec ++ e ++ m).toNat = _
  rw [BitVec.toNat_append, BitVec.toNat_append, ← Nat.shiftLeft_add_eq_or_of_lt e.isLt,
    ← Nat.shiftLeft_add_eq_or_of_lt m.isLt, Nat.shiftLeft_eq, Nat.shiftLeft_eq]
  omega

theorem toBitVec_ofBitVec (s : BitVec 1) : (Sign.ofBitVec s).toBitVec = s := by
  revert s; decide

/-- The components of a pattern, put together again. -/
theorem packComponents_unpack (b : BitVec 64) :
    packComponents Format.binary64 (Sign.ofBitVec (@unpackSign Format.binary64 b))
      (@unpackExponent Format.binary64 b) (@unpackMantissa Format.binary64 b) = b := by
  apply BitVec.eq_of_toNat_eq
  have hlt := b.isLt
  rw [toNat_packComponents, toBitVec_ofBitVec, toNat_unpackSign, toNat_unpackExponent,
    toNat_unpackMantissa]
  omega

/-- The pattern of a finite double: the exponent field is `field`, or zero when the significand lacks
its leading bit. -/
theorem pack_finite (field : Nat) (s : Sign) {m : Nat} {e : Int} (hm : 0 < m)
    (hfield : e + 1075 = field) (hlt : field < 2047) :
    pack Format.binary64 (.finite s m e hm) =
      if m.log2 + 1 = 53 then
        packComponents Format.binary64 s (BitVec.ofNat 11 field) (BitVec.ofNat 52 m)
      else packComponents Format.binary64 s 0#11 (BitVec.ofNat 52 m) := by
  have hbiased : (e + (Format.binary64.exponentBias : Nat) +
      (Format.binary64.mantissaBitsWithoutImplicit : Nat)).toNat = field := by
    rw [show Format.binary64.exponentBias = 1023 from rfl,
      show Format.binary64.mantissaBitsWithoutImplicit = 52 from rfl]
    omega
  have hfits : ¬ 2 ^ Format.binary64.exponentBits ≤ field + 1 := by
    show ¬ 2 ^ 11 ≤ field + 1
    omega
  unfold pack
  dsimp only
  rw [hbiased, if_neg hfits]
  rfl

/-- A pattern is made of its sign and its two other components. -/
theorem packComponents_eq {b : BitVec 64} {e : BitVec 11} {m : BitVec 52}
    (he : @unpackExponent Format.binary64 b = e) (hm : @unpackMantissa Format.binary64 b = m) :
    packComponents Format.binary64 (Sign.ofBitVec (@unpackSign Format.binary64 b)) e m = b := by
  subst he hm
  exact packComponents_unpack b

theorem log2_eq_iff {m : Nat} (hm : 0 < m) (hlt : m < 2 ^ 53) : m.log2 + 1 = 53 ↔ 2 ^ 52 ≤ m := by
  have hlow := Nat.le_log2 (k := 52) (Nat.ne_of_gt hm)
  have hhigh := Nat.log2_lt (k := 53) (Nat.ne_of_gt hm)
  omega

theorem pack_unpack {b : BitVec 64} (h : b.toNat % 2 ^ 63 ≤ infinity) :
    pack Format.binary64 (unpack Format.binary64 b) = b := by
  have hm := toNat_unpackMantissa b
  have he := toNat_unpackExponent b
  have hbias : ((Format.binary64.exponentBias : Nat) : Int) = 1023 := rfl
  have hbits : ((Format.binary64.mantissaBitsWithoutImplicit : Nat) : Int) = 52 := rfl
  unfold unpack
  dsimp only
  by_cases htop : @unpackExponent Format.binary64 b = -1#_
  · have hfield : (@unpackExponent Format.binary64 b).toNat = 2047 := congrArg BitVec.toNat htop
    have hzero : @unpackMantissa Format.binary64 b = 0#_ := by
      apply BitVec.eq_of_toNat_eq
      rw [infinity] at h
      show (@unpackMantissa Format.binary64 b).toNat = 0
      omega
    rw [if_pos htop, if_pos hzero]
    exact packComponents_eq htop hzero
  have hfield : (@unpackExponent Format.binary64 b).toNat ≠ 2047 := by
    intro h
    exact htop (BitVec.eq_of_toNat_eq h)
  rw [if_neg htop]
  by_cases hbottom : @unpackExponent Format.binary64 b = 0#_
  · rw [if_pos hbottom]
    by_cases hzero : @unpackMantissa Format.binary64 b = 0#_
    · rw [dif_pos hzero]
      exact packComponents_eq hbottom hzero
    · have hfield : (@unpackExponent Format.binary64 b).toNat = 0 := congrArg BitVec.toNat hbottom
      have hpos : (@unpackMantissa Format.binary64 b).toNat ≠ 0 := by
        intro h
        exact hzero (BitVec.eq_of_toNat_eq h)
      rw [dif_neg hzero, pack_finite 1 _ _ (by omega) (by omega), if_neg]
      · refine packComponents_eq hbottom ?_
        rw [BitVec.ofNat_toNat, BitVec.setWidth_eq]
      · rw [log2_eq_iff (by omega) (by omega)]
        omega
  · have hpos : (@unpackExponent Format.binary64 b).toNat ≠ 0 := by
      intro h
      exact hbottom (BitVec.eq_of_toNat_eq h)
    have happend := toNat_append_implicit (@unpackMantissa Format.binary64 b)
    rw [if_neg hbottom, pack_finite (@unpackExponent Format.binary64 b).toNat _ _ (by omega) (by omega),
      if_pos]
    · refine packComponents_eq ?_ ?_
      · rw [BitVec.ofNat_toNat, BitVec.setWidth_eq]
      · apply BitVec.eq_of_toNat_eq
        rw [happend, BitVec.toNat_ofNat]
        show (@unpackMantissa Format.binary64 b).toNat =
          (2 ^ 52 + (@unpackMantissa Format.binary64 b).toNat) % 2 ^ 52
        omega
    · rw [log2_eq_iff (by omega) (by omega)]
      omega

theorem toBits_ofBits {b : UInt64} (h : b.toNat % 2 ^ 63 ≤ infinity) : (Float.ofBits b).toBits = b :=
  UInt64.eq_of_toBitVec_eq (pack_unpack h)

/-! ## Sign and magnitude -/

theorem toNat_toBits_ofMagnitude {negative : Bool} {m : Nat} (h : m ≤ infinity) :
    (ofMagnitude negative m).toBits.toNat = if negative then m + 2 ^ 63 else m := by
  rw [infinity] at h
  have hlt : (if negative then m + 2 ^ 63 else m) < 2 ^ 64 := by
    split <;> omega
  have htoNat : (UInt64.ofNat (if negative then m + 2 ^ 63 else m)).toNat =
      if negative then m + 2 ^ 63 else m := Nat.mod_eq_of_lt hlt
  rw [ofMagnitude, toBits_ofBits, htoNat]
  rw [htoNat, infinity]
  split <;> omega

theorem magnitude_ofMagnitude {negative : Bool} {m : Nat} (h : m ≤ infinity) :
    magnitude (ofMagnitude negative m) = m := by
  rw [magnitude, toNat_toBits_ofMagnitude h]
  rw [infinity] at h
  split <;> omega

theorem isNegative_ofMagnitude {negative : Bool} {m : Nat} (h : m ≤ infinity) :
    isNegative (ofMagnitude negative m) = negative := by
  rw [isNegative, toNat_toBits_ofMagnitude h]
  rw [infinity] at h
  cases negative
  · exact decide_eq_false (by simp only [Bool.false_eq_true, if_false]; omega)
  · exact decide_eq_true (by simp only [if_true]; omega)

theorem isFinite_ofMagnitude {negative : Bool} {m : Nat} (h : m < infinity) :
    isFinite (ofMagnitude negative m) = true := by
  rw [isFinite, magnitude_ofMagnitude (Nat.le_of_lt h)]
  exact decide_eq_true h

theorem eq_of_toBits_eq {x y : Float} (h : x.toBits = y.toBits) : x = y := by
  obtain ⟨⟨b, hb⟩⟩ := x
  obtain ⟨⟨c, hc⟩⟩ := y
  cases h
  rfl

/-- A double is made of its sign and its magnitude. -/
theorem ofMagnitude_magnitude {x : Float} (h : magnitude x ≤ infinity) :
    ofMagnitude (isNegative x) (magnitude x) = x := by
  have hlt := x.toBits.toNat_lt
  refine eq_of_toBits_eq (UInt64.toNat_inj.1 ?_)
  rw [toNat_toBits_ofMagnitude h]
  unfold isNegative magnitude
  simp only [decide_eq_true_eq]
  split <;> omega

/-! ## Integers of 64 bits -/

theorem roundHalfEven_le (a b : Nat) : roundHalfEven a b ≤ a / b + 1 := by
  have hmod : a / b % 2 < 2 := Nat.mod_lt _ (by decide)
  unfold roundHalfEven
  dsimp only
  split <;> omega

/-- The exponent leaves at least 53 and at most 54 binary digits. -/
theorem binaryExponent_bounds (a b : Nat) :
    (a.log2 : Int) - b.log2 - 53 ≤ binaryExponent a b ∧
      binaryExponent a b ≤ (a.log2 : Int) - b.log2 - 52 := by
  unfold binaryExponent
  dsimp only
  split <;> omega

theorem scaled_le {a : Nat} {e : Int} (h : (a.log2 : Int) - 53 ≤ e) :
    a * 2 ^ (-e).toNat / (1 * 2 ^ e.toNat) ≤ 2 ^ 54 := by
  have ha : a < 2 ^ (a.log2 + 1) := Nat.lt_log2_self
  have hexponents : a.log2 + 1 + (-e).toNat ≤ 54 + e.toNat := by omega
  have hle : a * 2 ^ (-e).toNat ≤ 2 ^ 54 * 2 ^ e.toNat := by
    calc a * 2 ^ (-e).toNat
      _ ≤ 2 ^ (a.log2 + 1) * 2 ^ (-e).toNat := Nat.mul_le_mul_right _ (Nat.le_of_lt ha)
      _ = 2 ^ (a.log2 + 1 + (-e).toNat) := (Nat.pow_add _ _ _).symm
      _ ≤ 2 ^ (54 + e.toNat) := Nat.pow_le_pow_right (by decide) hexponents
      _ = 2 ^ 54 * 2 ^ e.toNat := Nat.pow_add _ _ _
  rw [Nat.one_mul]
  exact Nat.div_le_of_le_mul (Nat.mul_comm (2 ^ 54) _ ▸ hle)

theorem nearest_lt_infinity {a : Nat} (h : a ≤ 2 ^ 64) : nearest a 1 < infinity := by
  have hlog : a.log2 ≤ 64 := by
    rcases Nat.eq_zero_or_pos a with rfl | ha
    · decide
    · exact Nat.lt_succ_iff.1 ((Nat.log2_lt (Nat.ne_of_gt ha)).2 (by omega))
  have hbounds := binaryExponent_bounds a 1
  have hone : Nat.log2 1 = 0 := by decide
  unfold nearest
  dsimp only
  split
  · rw [infinity]
    decide
  · generalize he : max (binaryExponent a 1) leastExponent = e
    rw [leastExponent] at he
    have hsignificand := roundHalfEven_le (a * 2 ^ (-e).toNat) (1 * 2 ^ e.toNat)
    have hscaled := scaled_le (a := a) (e := e) (by omega)
    have hexponent : (e - leastExponent).toNat * 2 ^ 52 ≤ 1086 * 2 ^ 52 := by
      rw [leastExponent]
      exact Nat.mul_le_mul_right _ (by omega)
    refine Nat.lt_of_le_of_lt (Nat.min_le_left _ _) ?_
    rw [infinity]
    omega

/-- Integers of 64 bits, signed or not, are nearest to finite doubles. -/
theorem isFinite_ofInt {n : Int} (h : n.natAbs ≤ 2 ^ 64) : isFinite (ofInt n) = true :=
  isFinite_ofMagnitude (nearest_lt_infinity h)

end Formula.Number
