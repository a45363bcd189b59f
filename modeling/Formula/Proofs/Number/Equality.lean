import Formula.Number.Parts
/-!
# Equality of doubles

Core decides `==` on the fields of its logical model of `Float`. Here the same fields are read off
`parts`, and `==` becomes a relation on denotations: `Parts.Same` holds of equal denotations, of two
zeros of any sign, and of nothing that is undefined.

Results:
* `parts_eq_ofModel`: `parts` and the logical model denote alike.
* `beq_iff_same`: `x == y` says that the denotations are the same.
* `PartialEquivBEq Float`: `==` is symmetric and transitive.
* `beq_self_iff`: a double equals itself unless it is undefined.
-/
namespace Formula.Number

open Float.Model (UnpackedFloat Format)
open Float.Model.UnpackedFloat (Sign unpack unpackMantissa unpackExponent unpackSign)

/-! ## The logical model -/

/-- The denotation of a double of the logical model. -/
def Parts.ofModel : UnpackedFloat → Parts
  | .notANumber => .undefined
  | .infinity s => .infinite (s.toBitVec = 1#1)
  | .zero s => .finite (s.toBitVec = 1#1) 0 leastExponent
  | .finite s m e _ => .finite (s.toBitVec = 1#1) m e

section Fields

variable (b : BitVec 64)

theorem toNat_unpackMantissa :
    (@unpackMantissa Format.binary64 b).toNat = b.toNat % 2 ^ 52 := by
  simp [unpackMantissa]

theorem toNat_unpackExponent :
    (@unpackExponent Format.binary64 b).toNat = b.toNat / 2 ^ 52 % 2 ^ 11 := by
  simp [unpackExponent, Nat.shiftRight_eq_div_pow]

theorem toNat_unpackSign :
    (@unpackSign Format.binary64 b).toNat = b.toNat / 2 ^ 63 := by
  have := b.isLt
  show (b.extractLsb' 63 1).toNat = _
  rw [BitVec.extractLsb'_toNat, Nat.shiftRight_eq_div_pow]
  omega

theorem toBitVec_signOf (s : BitVec 1) :
    decide ((Sign.ofBitVec s).toBitVec = 1#1) = decide (1 ≤ s.toNat) := by
  revert s; decide

theorem toNat_append_implicit (m : BitVec 52) : (1#1 ++ m).toNat = 2 ^ 52 + m.toNat := by
  rw [BitVec.toNat_append]
  exact (Nat.two_pow_add_eq_or_of_lt m.isLt 1).symm

theorem ofModel_unpack :
    Parts.ofModel (unpack Format.binary64 b) =
      .ofMagnitude (2 ^ 63 ≤ b.toNat) (b.toNat % 2 ^ 63) := by
  have hlt := b.isLt
  have hm := toNat_unpackMantissa b
  have he := toNat_unpackExponent b
  have hsign : decide (2 ^ 63 ≤ b.toNat) =
      decide ((Sign.ofBitVec (@unpackSign Format.binary64 b)).toBitVec = 1#1) := by
    rw [toBitVec_signOf, toNat_unpackSign, decide_eq_decide]; omega
  have hfield : b.toNat % 2 ^ 63 / 2 ^ 52 =
      (@unpackExponent Format.binary64 b).toNat := by omega
  have hfraction : b.toNat % 2 ^ 63 % 2 ^ 52 =
      (@unpackMantissa Format.binary64 b).toNat := by omega
  -- The model compares the fields as bit vectors, `Parts.ofMagnitude` as numbers.
  have htop : @unpackExponent Format.binary64 b = -1#_ ↔
      (@unpackExponent Format.binary64 b).toNat = 2047 := by
    rw [← BitVec.toNat_inj]; rfl
  have hbottom : @unpackExponent Format.binary64 b = 0#_ ↔
      (@unpackExponent Format.binary64 b).toNat = 0 := by
    rw [← BitVec.toNat_inj]; rfl
  have hzero : @unpackMantissa Format.binary64 b = 0#_ ↔
      (@unpackMantissa Format.binary64 b).toNat = 0 := by
    rw [← BitVec.toNat_inj]; rfl
  unfold unpack Parts.ofMagnitude
  dsimp only
  rw [hsign, hfield, hfraction]
  by_cases ht : (@unpackExponent Format.binary64 b).toNat = 2047
  · rw [if_pos (htop.2 ht), if_pos ht]
    by_cases hz : (@unpackMantissa Format.binary64 b).toNat = 0
    · rw [if_pos (hzero.2 hz), if_pos hz]
      rfl
    · rw [if_neg (mt hzero.1 hz), if_neg hz]
      rfl
  rw [if_neg (mt htop.1 ht), if_neg ht]
  by_cases hb : (@unpackExponent Format.binary64 b).toNat = 0
  · rw [if_pos (hbottom.2 hb), if_pos hb]
    by_cases hz : (@unpackMantissa Format.binary64 b).toNat = 0
    · rw [dif_pos (hzero.2 hz), hz]
      rfl
    · rw [dif_neg (mt hzero.1 hz)]
      show Parts.finite _ _ _ = _
      rw [hb]
      rfl
  · rw [if_neg (mt hbottom.1 hb), if_neg hb]
    show Parts.finite _ _ _ = _
    rw [toNat_append_implicit]
    congr 1
    rw [show Format.binary64.exponentBias = 1023 from rfl, leastExponent]
    omega

end Fields

theorem parts_eq_ofModel (x : Float) : parts x = .ofModel x.toModel.unpack :=
  (ofModel_unpack _).symm

/-! ## Denotations that are the same -/

/-- The denotations of equal doubles. -/
def Parts.Same : Parts → Parts → Prop
  | .infinite s, .infinite t => s = t
  | .finite s m e, .finite t n f => m = n ∧ e = f ∧ (s = t ∨ m = 0)
  | _, _ => False

theorem Parts.Same.symm {p q : Parts} (h : p.Same q) : q.Same p := by
  cases p <;> cases q <;> simp only [Same] at h ⊢
  · exact h.symm
  · obtain ⟨rfl, rfl, hs⟩ := h
    exact ⟨rfl, rfl, hs.imp_left Eq.symm⟩

theorem Parts.Same.trans {p q r : Parts} (h : p.Same q) (h' : q.Same r) : p.Same r := by
  cases p <;> cases q <;> cases r <;> simp only [Same] at h h' ⊢
  · exact h.trans h'
  · obtain ⟨rfl, rfl, hs⟩ := h
    obtain ⟨rfl, rfl, ht⟩ := h'
    refine ⟨rfl, rfl, ?_⟩
    rcases hs with rfl | hz
    · exact ht
    · exact .inr hz

theorem Parts.same_self_iff (p : Parts) : p.Same p ↔ p ≠ .undefined := by
  cases p <;> simp [Same]

/-- Equality in the logical model. Significands of nonzero doubles are positive, so nothing but a zero
is the same as a zero. -/
theorem same_ofModel_iff (u w : UnpackedFloat) :
    u.beq w = true ↔ (Parts.ofModel u).Same (.ofModel w) := by
  have false_iff {p : Prop} (hp : ¬ p) : false = true ↔ p := iff_of_false Bool.false_ne_true hp
  cases u with
  | notANumber => exact false_iff id
  | infinity s =>
    cases w with
    | notANumber => exact false_iff id
    | infinity t =>
      cases s <;> cases t
      · exact iff_of_true rfl rfl
      · exact false_iff (by decide : ¬ decide (1#1 = 1#1) = decide (0#1 = 1#1))
      · exact false_iff (by decide : ¬ decide (0#1 = 1#1) = decide (1#1 = 1#1))
      · exact iff_of_true rfl rfl
    | zero t => cases s <;> exact false_iff id
    | finite t n f hn => cases s <;> exact false_iff id
  | zero s =>
    cases w with
    | notANumber => exact false_iff id
    | infinity t => cases t <;> exact false_iff id
    | zero t => exact iff_of_true rfl ⟨rfl, rfl, .inr rfl⟩
    | finite t n f hn =>
      have hn' : ¬ 0 = n := by omega
      cases t <;> exact false_iff fun h => hn' h.1
  | finite s m e hm =>
    have hm' : m ≠ 0 := by omega
    cases w with
    | notANumber => exact false_iff id
    | infinity t => cases t <;> cases s <;> exact false_iff id
    | zero t => cases s <;> exact false_iff fun h => hm' h.1
    | finite t n f hn =>
      cases s <;> cases t
      · show (some ((compare e f).then (compare m n)).swap == some .eq) = true ↔
          m = n ∧ e = f ∧ (decide (1#1 = 1#1) = decide (1#1 = 1#1) ∨ m = 0)
        simp [and_comm]
      · exact false_iff fun h => h.2.2.elim (by decide) hm'
      · exact false_iff fun h => h.2.2.elim (by decide) hm'
      · show (some ((compare e f).then (compare m n)) == some .eq) = true ↔
          m = n ∧ e = f ∧ (decide (0#1 = 1#1) = decide (0#1 = 1#1) ∨ m = 0)
        simp [and_comm]

/-- Equality of doubles is sameness of what they denote. -/
theorem beq_iff_same (x y : Float) : (x == y) = true ↔ (parts x).Same (parts y) := by
  rw [parts_eq_ofModel, parts_eq_ofModel]
  exact same_ofModel_iff _ _

instance partialEquivBEq_float : PartialEquivBEq Float where
  symm h := (beq_iff_same _ _).2 ((beq_iff_same _ _).1 h).symm
  trans h h' := (beq_iff_same _ _).2 (((beq_iff_same _ _).1 h).trans ((beq_iff_same _ _).1 h'))

theorem parts_eq_undefined_iff (x : Float) : parts x = .undefined ↔ isUndefined x = true := by
  have : magnitude x < 2 ^ 63 := Nat.mod_lt _ (by decide)
  rw [isUndefined, decide_eq_true_eq]
  unfold parts Parts.ofMagnitude infinity
  dsimp only
  split
  · split <;> simp only [reduceCtorEq, false_iff, true_iff] <;> omega
  · split <;> simp only [reduceCtorEq, false_iff] <;> omega

/-- A double equals itself unless it is undefined. -/
theorem beq_self_iff (x : Float) : (x == x) = true ↔ isUndefined x = false := by
  rw [beq_iff_same, Parts.same_self_iff, ne_eq, parts_eq_undefined_iff, Bool.not_eq_true]

end Formula.Number
