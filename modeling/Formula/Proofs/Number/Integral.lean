import Formula.Number.Integral
import Formula.Proofs.Number.Shortest
import Mathlib.Data.Rat.Floor
/-!
# Integers as numbers

The integer part of a number is computed on its significand, and here it is that of the rational number
which the double denotes, cut off toward zero. Integers of less than 54 binary digits are doubles; of
those with more digits only the even ones can be.

Results:
* `toIndex_eq_saturated`: the integer part, and what an index makes of it where it does not fit.
* `value?_ofInt`: the double of an integer denotes it.
* `natAbs_lt_of_odd`: the odd integers among the doubles.
-/
namespace Formula.Number

/-- The value `± significand · 2 ^ exponent`. -/
def signed (negative : Bool) (m : Nat) (q : Int) : ℚ :=
  if negative then -(m * 2 ^ q) else m * 2 ^ q

/-- The rational number that a finite double denotes. -/
def value? (x : Float) : Option ℚ :=
  match parts x with
  | .finite negative m q => some (signed negative m q)
  | _ => none

/-! ## Integer parts -/

/-- A rational number cut off toward zero. -/
def truncate (v : ℚ) : Int := if 0 ≤ v then ⌊v⌋ else ⌈v⌉

theorem truncate_intCast (n : Int) : truncate n = n := by
  unfold truncate
  rw [Int.floor_intCast, Int.ceil_intCast, ite_self]

theorem truncate_neg (v : ℚ) : truncate (-v) = -truncate v := by
  unfold truncate
  rw [Int.floor_neg, Int.ceil_neg]
  rcases lt_trichotomy v 0 with hv | rfl | hv
  · rw [if_pos (by linarith), if_neg (by linarith)]
  · simp
  · rw [if_neg (by linarith), if_pos hv.le]

/-- The integer part of a number, cut off toward zero. -/
inductive Whole where
  | undefined
  | infinite (negative : Bool)
  | integer (n : Int)
  deriving DecidableEq, Repr

def whole (x : Float) : Whole :=
  match parts x with
  | .undefined => .undefined
  | .infinite negative => .infinite negative
  | .finite negative m q => .integer (truncate (signed negative m q))

/-- The index for an integer part: zero where there is no number, the nearest end of the range of
64-bit indices where it does not fit. -/
def Whole.saturated : Whole → Int
  | .undefined => 0
  | .infinite negative => if negative then -(indexLimit + 1) else indexLimit
  | .integer n => clampIndex n

/-- The quotient of the aligned significand is the integer part of the magnitude. -/
theorem scaled_eq_floor (m : Nat) (q : Int) :
    (m : Int) * 2 ^ q.toNat / 2 ^ (-q).toNat = ⌊(m * 2 ^ q : ℚ)⌋ := by
  have hscaled := ratio_scaled (a := m) one_pos (-q)
  rw [neg_neg, Nat.cast_one, div_one, zpow_neg, div_inv_eq_mul] at hscaled
  rw [← hscaled]
  have hfloor := Rat.floor_intCast_div_natCast (m * 2 ^ q.toNat : Nat) (1 * 2 ^ (-q).toNat)
  push_cast at hfloor ⊢
  rw [hfloor, one_mul]

theorem truncate_signed (negative : Bool) (m : Nat) (q : Int) :
    truncate (signed negative m q) =
      if negative then -((m : Int) * 2 ^ q.toNat / 2 ^ (-q).toNat)
      else (m : Int) * 2 ^ q.toNat / 2 ^ (-q).toNat := by
  have hnonneg : (0 : ℚ) ≤ m * 2 ^ q := by positivity
  have hwhole : truncate (m * 2 ^ q) = (m : Int) * 2 ^ q.toNat / 2 ^ (-q).toNat := by
    rw [truncate, if_pos hnonneg, scaled_eq_floor]
  cases negative with
  | false => exact hwhole
  | true => exact (truncate_neg _).trans (congrArg Neg.neg hwhole)

theorem clampIndex_end (negative : Bool) :
    clampIndex (if negative then -(indexLimit + 1) else indexLimit) =
      if negative then -(indexLimit + 1) else indexLimit := by
  cases negative <;> decide

theorem toIndex_eq_saturated (x : Float) : toIndex x = (whole x).saturated := by
  unfold toIndex whole
  cases parts x with
  | undefined => rfl
  | infinite negative => exact clampIndex_end negative
  | finite negative m q => exact congrArg clampIndex (truncate_signed negative m q).symm

theorem clampIndex_eq_self {n : Int} (h : n.natAbs < 2 ^ 63) : clampIndex n = n := by
  rw [clampIndex, indexLimit]
  omega

theorem value?_eq_some {x : Float} {v : ℚ} (h : value? x = some v) :
    ∃ negative m q, parts x = .finite negative m q ∧ signed negative m q = v := by
  unfold value? at h
  split at h
  · next negative m q hparts => exact ⟨negative, m, q, hparts, Option.some.inj h⟩
  · cases h

theorem toIndex_of_value? {x : Float} {n : Int} (h : value? x = some (n : ℚ)) :
    toIndex x = clampIndex n := by
  obtain ⟨negative, m, q, hparts, hvalue⟩ := value?_eq_some h
  have hwhole : whole x = .integer n := by
    simp only [whole, hparts, hvalue, truncate_intCast]
  rw [toIndex_eq_saturated, hwhole]
  rfl

/-! ## Doubles from integers -/

variable {m : Nat} {q : Int}

/-- What the double with these fields denotes. -/
theorem Normalized.parts_ofMagnitude (hn : Normalized m q) (negative : Bool)
    (h : (q - leastExponent).toNat * 2 ^ 52 + m < infinity) :
    parts (ofMagnitude negative ((q - leastExponent).toNat * 2 ^ 52 + m)) =
      .finite negative m q := by
  have hpos := hn.pos
  have hlt := hn.lt
  have hleast := hn.least
  have hlead := hn.leading
  rw [parts, isNegative_ofMagnitude h.le, magnitude_ofMagnitude h.le]
  rw [infinity] at h
  unfold Parts.ofMagnitude
  dsimp only
  rw [if_neg (by omega)]
  split
  · congr 1 <;> omega
  · congr 1 <;> omega

/-- The significand is shifted until it has its leading bit. -/
theorem normalized_of_lt {a : Nat} (ha : 0 < a) (hlt : a < 2 ^ 53) :
    Normalized (a * 2 ^ (52 - a.log2)) (a.log2 - 52) := by
  have hlog : a.log2 ≤ 52 := Nat.lt_succ_iff.1 ((Nat.log2_lt ha.ne').2 hlt)
  have hsum : a.log2 + (52 - a.log2) = 52 := by omega
  have hlow : 2 ^ 52 ≤ a * 2 ^ (52 - a.log2) := by
    calc 2 ^ 52 = 2 ^ a.log2 * 2 ^ (52 - a.log2) := by rw [← pow_add, hsum]
      _ ≤ a * 2 ^ (52 - a.log2) := Nat.mul_le_mul_right _ (Nat.log2_self_le ha.ne')
  have hhigh : a * 2 ^ (52 - a.log2) < 2 ^ 53 := by
    calc a * 2 ^ (52 - a.log2)
      _ < 2 ^ (a.log2 + 1) * 2 ^ (52 - a.log2) :=
        Nat.mul_lt_mul_of_pos_right Nat.lt_log2_self (Nat.two_pow_pos _)
      _ = 2 ^ 53 := by rw [← pow_add, show a.log2 + 1 + (52 - a.log2) = 53 by omega]
  refine ⟨by omega, hhigh, ?_, fun _ => hlow⟩
  rw [leastExponent]
  omega

theorem value_of_lt {a : Nat} (ha : 0 < a) (hlt : a < 2 ^ 53) :
    ((a * 2 ^ (52 - a.log2) : Nat) : ℚ) * 2 ^ ((a.log2 : Int) - 52) = a := by
  have hlog : a.log2 ≤ 52 := Nat.lt_succ_iff.1 ((Nat.log2_lt ha.ne').2 hlt)
  have hshift : (2 : ℚ) ^ (52 - a.log2) * 2 ^ ((a.log2 : Int) - 52) = 1 := by
    rw [← zpow_natCast, ← two_zpow_add, Nat.cast_sub hlog]
    norm_num
  push_cast
  rw [mul_assoc, hshift, mul_one]

theorem signed_eq_intCast {n : Int} (h : (m * 2 ^ q : ℚ) = n.natAbs) :
    signed (n < 0) m q = n := by
  rw [signed, h, Nat.cast_natAbs]
  split
  · next hn => rw [abs_of_neg (of_decide_eq_true hn), Int.cast_neg, neg_neg]
  · next hn => rw [abs_of_nonneg (not_lt.1 fun h => hn (decide_eq_true h))]

theorem magnitude_of_signed {negative : Bool} {n : Int} (h : signed negative m q = n) :
    (m * 2 ^ q : ℚ) = n.natAbs := by
  have hnonneg : (0 : ℚ) ≤ m * 2 ^ q := by positivity
  rw [Nat.cast_natAbs, Int.cast_abs, ← h]
  cases negative with
  | false => exact (abs_of_nonneg hnonneg).symm
  | true => exact ((abs_neg _).trans (abs_of_nonneg hnonneg)).symm

/-- **Integers below `2 ^ 53` are doubles.** -/
theorem value?_ofInt {n : Int} (h : n.natAbs < 2 ^ 53) : value? (ofInt n) = some (n : ℚ) := by
  rcases Nat.eq_zero_or_pos n.natAbs with hzero | hpos
  · obtain rfl := Int.natAbs_eq_zero.1 hzero
    have hparts : parts (ofInt 0) = .finite false 0 leastExponent := by decide
    simp [value?, hparts, signed]
  · have hn := normalized_of_lt hpos h
    have hvalue := value_of_lt hpos h
    have hspans := Interval.spans_self (q := n.natAbs.log2 - 52) hn.pos
    rw [hvalue, ← div_one (n.natAbs : ℚ), ← Nat.cast_one] at hspans
    have hnearest := hn.nearest_eq one_pos hspans
    have hfinite := nearest_lt_infinity (a := n.natAbs) (by omega)
    rw [hnearest, min_lt_iff, or_iff_left (lt_irrefl _)] at hfinite
    have hparts := hn.parts_ofMagnitude (n < 0) hfinite
    rw [← min_eq_left hfinite.le, ← hnearest] at hparts
    rw [value?, ofInt, ofRatio, hparts, Option.some.injEq]
    exact signed_eq_intCast hvalue

/-- Above 53 binary digits doubles are even. -/
theorem natAbs_lt_of_odd {x : Float} {n : Int} (h : value? x = some (n : ℚ)) (hodd : n % 2 = 1) :
    n.natAbs < 2 ^ 53 := by
  obtain ⟨negative, m, q, hparts, hvalue⟩ := value?_eq_some h
  have hm : m < 2 ^ 53 := by
    rcases Nat.eq_zero_or_pos m with rfl | hpos
    · exact Nat.two_pow_pos 53
    · exact ((parts_eq_finite hparts).2.2.2.2 hpos).lt
  have hmagnitude := magnitude_of_signed hvalue
  rcases le_or_gt q 0 with hq | hq
  · have hle : (n.natAbs : ℚ) ≤ m := by
      rw [← hmagnitude]
      exact mul_le_of_le_one_right m.cast_nonneg (zpow_le_one_of_nonpos₀ one_le_two hq)
    exact (Nat.cast_le.1 hle).trans_lt hm
  · -- A factor of two is left over.
    have heven : n.natAbs = m * 2 ^ (q.toNat - 1) * 2 := by
      rw [← Nat.cast_inj (R := ℚ), ← hmagnitude, mul_assoc, ← pow_succ,
        Nat.sub_add_cancel (by omega)]
      push_cast
      rw [← zpow_natCast, Int.toNat_of_nonneg hq.le]
    omega

end Formula.Number
