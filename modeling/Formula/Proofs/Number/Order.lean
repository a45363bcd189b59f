import Formula.Proofs.Number.Nearest
/-!
# Sign and order of doubles

Core negates and compares doubles through the fields of its logical model. A double that is a number is
found again from these fields, so a changed sign changes nothing else; and of two doubles under no minus
sign the one with the greater exponent, or else significand, denotes the greater number.

Results:
* `neg_ofMagnitude`, `abs_ofMagnitude`: another sign of the same magnitude.
* `parts_neg`, `parts_abs`: what the negative of a number denotes, and its absolute value.
* `le_iff_of_parts`, `lt_iff_of_parts`: comparing doubles is comparing what they denote.
* `eq_of_beq`: without a minus zero, equal finite doubles are the same.
-/
namespace Formula.Number

open Float.Model (UnpackedFloat Format)
open Float.Model.UnpackedFloat (Sign unpack pack)

variable {x y : Float} {negative : Bool} {m n : Nat} {q e f : Int}

/-! ## Doubles found from their fields -/

/-- Whether a sign of the logical model is a minus. -/
theorem sign_eq_of_decide_eq {s t : Sign}
    (h : decide (s.toBitVec = 1#1) = decide (t.toBitVec = 1#1)) : s = t := by
  cases s <;> cases t
  · rfl
  · exact absurd h (by decide)
  · exact absurd h (by decide)
  · rfl

theorem Parts.ofModel_injective : Function.Injective Parts.ofModel := by
  intro u w h
  cases u <;> cases w <;> unfold Parts.ofModel at h <;> injection h
  · rename_i hs
    rw [sign_eq_of_decide_eq hs]
  · rfl
  · rename_i hs _ _
    rw [sign_eq_of_decide_eq hs]
  · rename_i hm _ hzero _
    exact absurd hzero hm.ne
  · rename_i hm _ _ hzero _
    exact absurd hzero hm.ne'
  · rename_i hs hm he
    subst hm he
    rw [sign_eq_of_decide_eq hs]

/-- The double of a sign and a magnitude is the one packed from its fields. -/
theorem ofModel_pack (negative : Bool) (hm : m ≤ infinity) {u : UnpackedFloat}
    (h : Parts.ofModel u = Parts.ofMagnitude negative m) :
    Float.ofModel (.pack u) = ofMagnitude negative m := by
  have hparts := parts_eq_ofModel (ofMagnitude negative m)
  rw [parts, isNegative_ofMagnitude hm, magnitude_ofMagnitude hm, ← h] at hparts
  rw [Parts.ofModel_injective hparts]
  refine eq_of_toBits_eq (UInt64.eq_of_toBitVec_eq (pack_unpack ?_))
  show magnitude (ofMagnitude negative m) ≤ infinity
  rwa [magnitude_ofMagnitude hm]

/-! ## Signs -/

/-- The denotation with another sign in the place of its own. -/
def Parts.mapSign (f : Bool → Bool) : Parts → Parts
  | .undefined => .undefined
  | .infinite negative => .infinite (f negative)
  | .finite negative m q => .finite (f negative) m q

theorem Parts.mapSign_ofMagnitude (f : Bool → Bool) (negative : Bool) (m : Nat) :
    (Parts.ofMagnitude negative m).mapSign f = Parts.ofMagnitude (f negative) m := by
  unfold Parts.ofMagnitude
  dsimp only
  split
  · split <;> rfl
  · split <;> rfl

theorem ofModel_ofMagnitude (negative : Bool) (hm : m ≤ infinity) :
    Parts.ofModel (ofMagnitude negative m).toModel.unpack = Parts.ofMagnitude negative m := by
  rw [← parts_eq_ofModel, parts, isNegative_ofMagnitude hm, magnitude_ofMagnitude hm]

theorem ofModel_neg (u : UnpackedFloat) : Parts.ofModel u.neg = (Parts.ofModel u).mapSign not := by
  have hsign (s : Sign) : decide ((-s).toBitVec = 1#1) = !decide (s.toBitVec = 1#1) := by
    cases s <;> rfl
  cases u with
  | notANumber => rfl
  | infinity s => exact congrArg Parts.infinite (hsign s)
  | zero s => exact congrArg (Parts.finite · 0 leastExponent) (hsign s)
  | finite s m e _ => exact congrArg (Parts.finite · m e) (hsign s)

theorem ofModel_abs (u : UnpackedFloat) :
    Parts.ofModel u.abs = (Parts.ofModel u).mapSign fun _ => false := by
  cases u <;> rfl

theorem neg_ofMagnitude (negative : Bool) (hm : m ≤ infinity) :
    -ofMagnitude negative m = ofMagnitude (!negative) m := by
  refine ofModel_pack _ hm ?_
  rw [ofModel_neg, ofModel_ofMagnitude negative hm, Parts.mapSign_ofMagnitude]

theorem abs_ofMagnitude (negative : Bool) (hm : m ≤ infinity) :
    (ofMagnitude negative m).abs = ofMagnitude false m := by
  refine ofModel_pack _ hm ?_
  rw [ofModel_abs, ofModel_ofMagnitude negative hm, Parts.mapSign_ofMagnitude]

theorem parts_ofMagnitude (negative : Bool) (hm : m ≤ infinity) :
    parts (ofMagnitude negative m) = Parts.ofMagnitude negative m := by
  rw [parts, isNegative_ofMagnitude hm, magnitude_ofMagnitude hm]

/-- A number is the double of its sign and magnitude. -/
theorem magnitude_le_of_parts (h : parts x ≠ .undefined) :
    magnitude x ≤ infinity ∧ ofMagnitude (isNegative x) (magnitude x) = x := by
  have hle : magnitude x ≤ infinity := by
    rw [ne_eq, parts_eq_undefined_iff, isUndefined, decide_eq_true_eq] at h
    exact not_lt.1 h
  exact ⟨hle, ofMagnitude_magnitude hle⟩

/-- The negative of a number denotes the same under the other sign. -/
theorem parts_neg (h : parts x ≠ .undefined) : parts (-x) = (parts x).mapSign not := by
  obtain ⟨hle, hx⟩ := magnitude_le_of_parts h
  rw [← hx, neg_ofMagnitude _ hle, parts_ofMagnitude _ hle, parts_ofMagnitude _ hle,
    Parts.mapSign_ofMagnitude]

theorem parts_abs (h : parts x ≠ .undefined) :
    parts x.abs = (parts x).mapSign fun _ => false := by
  obtain ⟨hle, hx⟩ := magnitude_le_of_parts h
  rw [← hx, abs_ofMagnitude _ hle, parts_ofMagnitude _ hle, parts_ofMagnitude _ hle,
    Parts.mapSign_ofMagnitude]

theorem abs_neg_eq (h : parts x ≠ .undefined) : (-x).abs = x.abs := by
  obtain ⟨hle, hx⟩ := magnitude_le_of_parts h
  rw [← hx, neg_ofMagnitude _ hle, abs_ofMagnitude _ hle, abs_ofMagnitude _ hle]

/-- The negative of the number is rounded to the negative of the double. -/
theorem Rounds.neg {v : ℚ} (h : Rounds negative v x) (hv : 0 ≤ v) : Rounds (!negative) v (-x) := by
  obtain ⟨k, hk⟩ := Magnitude.exists_isNearest hv
  rw [h.eq_ofMagnitude hk, neg_ofMagnitude negative (min_le_right _ _)]
  exact rounds_ofMagnitude (!negative) hv hk

/-! ## Order -/

/-- Exponents are compared first, and then significands, as if they were one number. -/
theorem compare_then_compare (h : Normalized m e) (h' : Normalized n f) :
    (compare e f).then (compare m n) = compare ((m : ℚ) * 2 ^ e) (n * 2 ^ f) := by
  have hindex : (compare e f).then (compare m n) =
      compare ((e - leastExponent).toNat * 2 ^ 52 + m) ((f - leastExponent).toNat * 2 ^ 52 + n) := by
    obtain ⟨-, hm, he, hlead⟩ := h
    obtain ⟨-, hn, hf, hlead'⟩ := h'
    rcases lt_trichotomy e f with hlt | rfl | hgt
    · rw [compare_lt_iff_lt.2 hlt, eq_comm]
      exact compare_lt_iff_lt.2 (by omega)
    · rw [compare_eq_iff_eq.2 rfl, ← cmp_eq_compare, ← cmp_eq_compare, cmp_add_left]
      rfl
    · rw [compare_gt_iff_gt.2 hgt, eq_comm]
      exact compare_gt_iff_gt.2 (by omega)
  rw [hindex, ← Magnitude.value_index h, ← Magnitude.value_index h', ← cmp_eq_compare,
    ← cmp_eq_compare, Magnitude.strictMono_value.cmp_map_eq]

def modelSign (negative : Bool) : Sign := if negative then .negative else .positive

/-- What the logical model has for a finite number. -/
theorem exists_unpack (h : parts x = .finite negative m q) :
    (m = 0 ∧ x.toModel.unpack = .zero (modelSign negative)) ∨
      ∃ hm : 0 < m, x.toModel.unpack = .finite (modelSign negative) m q hm := by
  have hmodel := parts_eq_ofModel x
  rw [h] at hmodel
  by_cases hm : m = 0
  · obtain rfl := (parts_eq_finite h).2.2.2.1 hm
    subst hm
    refine .inl ⟨rfl, Parts.ofModel_injective (hmodel.symm.trans ?_)⟩
    cases negative <;> rfl
  · have hpos := Nat.pos_iff_ne_zero.2 hm
    refine .inr ⟨hpos, Parts.ofModel_injective (hmodel.symm.trans ?_)⟩
    cases negative <;> rfl

theorem compare_unpack (hx : parts x = .finite false m e) (hy : parts y = .finite false n f) :
    x.toModel.unpack.compare y.toModel.unpack = some (compare ((m : ℚ) * 2 ^ e) (n * 2 ^ f)) := by
  have hzero (k : Int) : ((0 : Nat) : ℚ) * 2 ^ k = 0 := by
    rw [Nat.cast_zero, zero_mul]
  have hpositive {k : Nat} (hk : 0 < k) (g : Int) : (0 : ℚ) < k * 2 ^ g := by
    positivity
  obtain ⟨rfl, hu⟩ | ⟨hm, hu⟩ := exists_unpack hx
  · obtain ⟨rfl, hw⟩ | ⟨hn, hw⟩ := exists_unpack hy
    · rw [hu, hw, hzero, hzero, compare_eq_iff_eq.2 rfl]
      rfl
    · rw [hu, hw, hzero, compare_lt_iff_lt.2 (hpositive hn f)]
      rfl
  · obtain ⟨rfl, hw⟩ | ⟨hn, hw⟩ := exists_unpack hy
    · rw [hu, hw, hzero, compare_gt_iff_gt.2 (hpositive hm e)]
      rfl
    · rw [hu, hw, ← compare_then_compare ((parts_eq_finite hx).2.2.2.2 hm)
        ((parts_eq_finite hy).2.2.2.2 hn)]
      rfl

theorem le_iff_of_parts (hx : parts x = .finite false m e) (hy : parts y = .finite false n f) :
    x ≤ y ↔ (m * 2 ^ e : ℚ) ≤ n * 2 ^ f := by
  have hmodel : x ≤ y ↔ (x.toModel.unpack.compare y.toModel.unpack).any Ordering.isLE = true :=
    decide_eq_true_iff
  rw [hmodel, compare_unpack hx hy, ← compare_le_iff_le]
  cases compare ((m : ℚ) * 2 ^ e) (n * 2 ^ f) <;> decide

theorem lt_iff_of_parts (hx : parts x = .finite false m e) (hy : parts y = .finite false n f) :
    x < y ↔ (m * 2 ^ e : ℚ) < n * 2 ^ f := by
  have hmodel : x < y ↔ (x.toModel.unpack.compare y.toModel.unpack == some .lt) = true :=
    decide_eq_true_iff
  rw [hmodel, compare_unpack hx hy, ← compare_lt_iff_lt]
  cases compare ((m : ℚ) * 2 ^ e) (n * 2 ^ f) <;> decide

/-! ## Equal doubles -/

theorem eq_of_parts_finite (hx : parts x = .finite negative m q) (hy : parts y = .finite negative m q) :
    x = y := by
  obtain ⟨hnegative, hmagnitude, hlt, -⟩ := parts_eq_finite hx
  obtain ⟨hnegative', hmagnitude', hlt', -⟩ := parts_eq_finite hy
  rw [← ofMagnitude_magnitude hlt.le, ← ofMagnitude_magnitude hlt'.le, hnegative, hnegative',
    hmagnitude, hmagnitude']

theorem eq_negZero_of_parts (h : parts x = .finite true 0 q) : x = -0.0 := by
  obtain rfl := (parts_eq_finite h).2.2.2.1 rfl
  exact eq_of_parts_finite h (by decide)

/-- Only the zeros are equal and not the same. -/
theorem eq_of_beq (h : (x == y) = true) (hx : isFinite x = true) (hzero : x ≠ -0.0)
    (hzero' : y ≠ -0.0) : x = y := by
  obtain ⟨m, q, hparts⟩ := exists_parts_eq_finite hx
  have hsame := (beq_iff_same x y).1 h
  rw [hparts] at hsame
  cases hy : parts y with
  | undefined | infinite =>
    rw [hy] at hsame
    exact hsame.elim
  | finite negative n f =>
    rw [hy] at hsame
    obtain ⟨rfl, rfl, hsign⟩ := hsame
    by_cases hnegative : isNegative x = negative
    · exact eq_of_parts_finite (hnegative ▸ hparts) hy
    · -- The signs differ, so both are zeros, and one of them is the one that is excluded.
      obtain rfl := hsign.resolve_left hnegative
      cases negative with
      | true => exact absurd (eq_negZero_of_parts hy) hzero'
      | false =>
        rw [Bool.not_eq_false] at hnegative
        exact absurd (eq_negZero_of_parts (hnegative ▸ hparts)) hzero

end Formula.Number
