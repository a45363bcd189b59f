import Formula.Proofs.Number.Integral
import Formula.Proofs.Operator.Congruence
import Formula.Proofs.Operator.Unfit
import Mathlib.Data.Int.ModEq
/-!
# Indices

A negative index counts from the end, around as often as needed: the length is added to it until it is
not negative. The remainder of a division does this at once, also on machine words, where no step of it
leaves the 64 bits. An index that is not negative is taken as it is.

Results:
* `raised_eq_emod`: repeated addition of the length is a remainder.
* `remainderWord?_eq`, `wrapIndexWord?_eq`: the same computation on machine words.
* `Value.element_eq`: what an index finds in a sequence or a text.
* `index_wrapping_exact`: indices, and elements of sequences and texts.
-/
namespace Formula

/-! ## Counting from the end -/

/-- The index after the length was added to it until it is not negative. -/
def raised (length : Nat) (index : Int) : Int :=
  if index < 0 ∧ 0 < length then raised length (index + length) else index
termination_by (-index).toNat

/-- Each addition keeps the remainder, and the last one ends below the length. -/
theorem raised_eq_emod {length : Nat} {index : Int} (hlength : 0 < length) (h : index < length) :
    raised length index = index % length := by
  fun_induction raised length index with
  | case1 index hneg ih => rw [ih (by omega), Int.add_emod_right]
  | case2 index hneg => rw [Int.emod_eq_of_lt (by omega) h]

/-- Below the length there is a position for every index. -/
theorem wrapIndex_eq_emod {length : Nat} {index : Int} (hlength : 0 < length)
    (h : index < length) : wrapIndex index length = .ok (index % length).toNat := by
  have hnonneg := Int.emod_nonneg index (b := length) (by omega)
  have hlt := Int.emod_lt_of_pos index (b := length) (by omega)
  by_cases hneg : index < 0
  · simp only [wrapIndex, hneg, hlength, and_self, if_true, hnonneg, hlt]
  · have hself : index % length = index := Int.emod_eq_of_lt (not_lt.1 hneg) h
    simp only [wrapIndex, hneg, false_and, if_false, not_lt.1 hneg, h, and_self, if_true, hself]

theorem wrapIndex_of_neg {length : Nat} {index : Int} (hlength : 0 < length) (h : index < 0) :
    ∃ p : Nat, wrapIndex index length = .ok p ∧ (p : Int) = raised length index ∧
      ∀ q : Nat, q = p ↔ q < length ∧ (q : Int) ≡ index [ZMOD length] := by
  have hnonneg := Int.emod_nonneg index (b := length) (by omega)
  have hlt := Int.emod_lt_of_pos index (b := length) (by omega)
  refine ⟨_, wrapIndex_eq_emod hlength (by omega), ?_, fun q => ?_⟩
  · rw [raised_eq_emod hlength (by omega), Int.toNat_of_nonneg hnonneg]
  · constructor
    · rintro rfl
      refine ⟨by omega, ?_⟩
      rw [Int.toNat_of_nonneg hnonneg]
      exact Int.mod_modEq index length
    · rintro ⟨hq, hmod⟩
      have hself : (q : Int) % length = q := Int.emod_eq_of_lt (by omega) (by omega)
      rw [← hmod, hself, Int.toNat_natCast]

theorem wrapIndex_of_lt {length : Nat} {index : Int} (h : 0 ≤ index) (hlt : index < length) :
    wrapIndex index length = .ok index.toNat := by
  rw [wrapIndex_eq_emod (by omega) hlt, Int.emod_eq_of_lt h hlt]

/-! ## Machine words -/

/-- The signed word for an integer, if there is one. -/
def word? (n : Int) : Option Int64 :=
  if -2 ^ 63 ≤ n ∧ n < 2 ^ 63 then some (Int64.ofInt n) else none

theorem word?_eq_some {n : Int} (h : -2 ^ 63 ≤ n) (hlt : n < 2 ^ 63) :
    ∃ w, word? n = some w ∧ w.toInt = n :=
  ⟨Int64.ofInt n, if_pos ⟨h, hlt⟩, Int64.toInt_ofInt_of_le h hlt⟩

/-- The remainder of a division of words that is not negative. The machine divides toward zero, and a
negative remainder is corrected by the size of the divisor. There is none for the divisor zero, nor
where the quotient or a later step leaves the words. -/
def remainderWord? (a b : Int64) : Option Int64 :=
  if b.toInt = 0 then none
  else do
    let _ ← word? (a.toInt.tdiv b.toInt)
    let r ← word? (a.toInt.tmod b.toInt)
    if r.toInt < 0 then
      let size ← word? b.toInt.natAbs
      word? (r.toInt + size.toInt)
    else some r

/-- Only the least word divided by minus one has a quotient that is no word. -/
theorem tdiv_bounds {a b : Int} (ha : -2 ^ 63 ≤ a) (hlt : a < 2 ^ 63) (hb : 0 < b) :
    -2 ^ 63 ≤ a.tdiv b ∧ a.tdiv b < 2 ^ 63 := by
  have hsize := Int.natAbs_tdiv_le_natAbs a b
  have hsign : 0 ≤ a ∨ a.tdiv b ≤ 0 := by
    rcases le_or_gt 0 a with h | h
    · exact .inl h
    · have := Int.tdiv_nonneg (a := -a) (b := b) (by omega) hb.le
      rw [Int.neg_tdiv] at this
      exact .inr (by omega)
  omega

theorem remainderWord?_eq (a : Int64) {b : Int64} (hb : 0 < b.toInt) :
    ∃ w, remainderWord? a b = some w ∧ w.toInt = a.toInt % b.toInt := by
  have hquotient := tdiv_bounds a.le_toInt a.toInt_lt hb
  have hlow := Int.lt_tmod_of_pos a.toInt hb
  have hhigh := Int.tmod_lt_of_pos a.toInt hb
  have hsize := b.toInt_lt
  have hmod := Int.emod_eq_tmod (a := a.toInt) (b := b.toInt)
  have hnonneg := Int.emod_nonneg a.toInt hb.ne'
  have hlt := Int.emod_lt_of_pos a.toInt hb
  obtain ⟨quotient, hq, -⟩ := word?_eq_some hquotient.1 hquotient.2
  obtain ⟨r, hr, hrValue⟩ := word?_eq_some (n := a.toInt.tmod b.toInt) (by omega) (by omega)
  obtain ⟨size, hs, hsValue⟩ := word?_eq_some (n := b.toInt.natAbs) (by omega) (by omega)
  simp only [remainderWord?, if_neg hb.ne', hq, hr, Option.bind_eq_bind, Option.bind_some, hrValue]
  split at hmod
  · -- The quotient was not rounded up, so the remainder is not negative.
    rw [if_neg (by omega)]
    exact ⟨r, rfl, by omega⟩
  · split
    · simp only [hs, Option.bind_some, hsValue]
      obtain ⟨w, hw, hwValue⟩ :=
        word?_eq_some (n := a.toInt.tmod b.toInt + b.toInt.natAbs) (by omega) (by omega)
      exact ⟨w, hw, by omega⟩
    · omega

/-- `wrapIndex` on machine words, where the length is read as a signed word; there is no result where a
step overflows. -/
def wrapIndexWord? (index : Int64) (length : UInt64) : Option (Except Fault UInt64) :=
  let fault : Fault := .outOfBounds index.toInt length.toNat
  if length.toNat = 0 then some (.error fault)
  else
    let wrapped := if index.toInt < 0 then remainderWord? index length.toInt64 else some index
    wrapped.map fun w =>
      if 0 ≤ w.toInt ∧ w.toUInt64.toNat < length.toNat then .ok w.toUInt64 else .error fault

theorem toInt_toInt64 {length : UInt64} (h : length.toNat < 2 ^ 63) :
    length.toInt64.toInt = length.toNat :=
  BitVec.toInt_eq_toNat_of_lt (by change 2 * length.toNat < 2 ^ 64; omega)

theorem toNat_toUInt64 {w : Int64} (h : 0 ≤ w.toInt) : w.toUInt64.toNat = w.toInt.toNat :=
  Int64.toNat_toUInt64_of_le (Int64.le_iff_toInt_le.2 h)

/-- The word that is compared with the length is the integer that is. -/
theorem exists_wrapped (index : Int64) {length : UInt64} (hpos : 0 < length.toNat)
    (h : length.toNat < 2 ^ 63) :
    ∃ w, (if index.toInt < 0 then remainderWord? index length.toInt64 else some index) = some w ∧
      w.toInt = if index.toInt < 0 ∧ 0 < length.toNat then index.toInt % length.toNat
        else index.toInt := by
  have hlength := toInt_toInt64 h
  by_cases hneg : index.toInt < 0
  · obtain ⟨w, hw, hwValue⟩ := remainderWord?_eq index (b := length.toInt64) (by omega)
    rw [if_pos hneg, if_pos ⟨hneg, hpos⟩, ← hlength]
    exact ⟨w, hw, hwValue⟩
  · rw [if_neg hneg, if_neg fun h => hneg h.1]
    exact ⟨index, rfl, rfl⟩

theorem wrapIndexWord?_eq (index : Int64) {length : UInt64} (h : length.toNat < 2 ^ 63) :
    ∃ answer, wrapIndexWord? index length = some answer ∧
      answer.map UInt64.toNat = wrapIndex index.toInt length.toNat := by
  unfold wrapIndexWord?
  dsimp only
  by_cases hzero : length.toNat = 0
  · refine ⟨_, if_pos hzero, ?_⟩
    exact (Value.wrapIndex_eq_error_iff.2 ⟨.inl hzero, rfl⟩).symm
  obtain ⟨w, hw, hwValue⟩ := exists_wrapped index (Nat.pos_of_ne_zero hzero) h
  rw [if_neg hzero, hw]
  refine ⟨_, rfl, ?_⟩
  simp only [wrapIndex, ← hwValue]
  by_cases hnonneg : 0 ≤ w.toInt
  · have hword := toNat_toUInt64 hnonneg
    have hlt : w.toUInt64.toNat < length.toNat ↔ w.toInt < length.toNat := by omega
    simp only [hlt]
    split
    · exact congrArg Except.ok hword
    · rfl
  · rw [if_neg fun h => hnonneg h.1, if_neg fun h => hnonneg h.1]
    rfl

/-! ## Sequences and texts -/

namespace Value

/-- Sequences and texts. -/
def IsPositional (v : Value) : Prop := v.kind = .sequence ∨ v.kind = .text

/-- The items of a sequence, and the characters of a text one by one. -/
def components : Value → List Value
  | .sequence items => items
  | .text s => s.toList.map fun c => .text (String.singleton c)
  | _ => []

variable {operator : String} {container index : Value}

theorem IsPositional.isContainer (h : container.IsPositional) : container.isContainer = true := by
  cases container <;> simp [IsPositional, kind] at h <;> rfl

/-- A position is looked up, a character as a text of its own. -/
theorem element_eq (h : container.IsPositional) :
    container.element operator index =
      (index.position operator container.components.length).map (container.components[·]?) := by
  cases container with
  | sequence items => simp only [element, components]; cases index.position operator _ <;> rfl
  | text s =>
    simp only [element, components, List.length_map, List.getElem?_map]
    cases index.position operator _ <;> rfl
  | number | boolean | mapping => simp [IsPositional, kind] at h

theorem access_eq_element (hc : container.isContainer = true) (hi : index.kind ≠ .sequence) :
    container.access operator index = container.element operator index := by
  unfold access
  rw [if_pos hc]
  cases index with
  | sequence indices => exact absurd rfl hi
  | number | boolean | text | mapping => rfl

/-- A number finds a component or lies outside. -/
theorem element_number (h : container.IsPositional) (x : Float) :
    (∃ p, ∃ hp : p < container.components.length,
      wrapIndex (Number.toIndex x) container.components.length = .ok p ∧
      container.element operator (.number x) = .ok (some container.components[p])) ∨
    (container.components.length = 0 ∨ container.components.length ≤ Number.toIndex x) ∧
      container.element operator (.number x) =
        .error (.outOfBounds (Number.toIndex x) container.components.length) := by
  rw [element_eq h, position]
  cases hwrap : wrapIndex (Number.toIndex x) container.components.length with
  | ok p =>
    have hp := lt_of_wrapIndex hwrap
    exact .inl ⟨p, hp, rfl, congrArg Except.ok (List.getElem?_eq_getElem hp)⟩
  | error f =>
    obtain ⟨hout, rfl⟩ := wrapIndex_eq_error_iff.1 hwrap
    exact .inr ⟨hout, rfl⟩

end Value

/-- **Indices are exact.** A negative index means the position that adding the length to it leads to,
the only one below the length that is congruent to it; one from zero up to below the length means
itself; any other is out of bounds, and reported as it is. On machine words no step overflows, and the
result is the same. So a number finds the component of a sequence or a text at such a position, or its
integer part is reported, within the 64-bit indices and with zero for the undefined number; and numbers
with the same integer part find the same. -/
theorem index_wrapping_exact {σ : Type} [Scope σ] (scope : σ) :
    (∀ (index : Int) (length : Nat), index < 0 → 0 < length →
      ∃ p : Nat, wrapIndex index length = .ok p ∧ (p : Int) = raised length index ∧
        ∀ q : Nat, q = p ↔ q < length ∧ (q : Int) ≡ index [ZMOD length]) ∧
    (∀ (index : Int) (length : Nat), 0 ≤ index → index < length →
      wrapIndex index length = .ok index.toNat) ∧
    (∀ (index : Int) (length : Nat), length = 0 ∨ length ≤ index →
      wrapIndex index length = .error (.outOfBounds index length)) ∧
    (∀ (index : Int64) (length : UInt64), length.toNat < 2 ^ 63 →
      ∃ answer, wrapIndexWord? index length = some answer ∧
        answer.map UInt64.toNat = wrapIndex index.toInt length.toNat) ∧
    (∀ symbol, symbol = "@" ∨ symbol = "AT" →
      ∀ container : Value, container.IsPositional → ∀ x : Float,
        ((∃ p, ∃ hp : p < container.components.length,
          wrapIndex (Number.whole x).saturated container.components.length = .ok p ∧
          apply symbol [container, .number x] scope = .ok (some container.components[p])) ∨
        (container.components.length = 0 ∨
            container.components.length ≤ (Number.whole x).saturated) ∧
          apply symbol [container, .number x] scope =
            .error (.outOfBounds (Number.whole x).saturated container.components.length)) ∧
        ∀ y : Float, Number.whole x = Number.whole y →
          apply symbol [container, .number x] scope = apply symbol [container, .number y] scope) := by
  refine ⟨fun index length h hlength => wrapIndex_of_neg hlength h,
    fun index length h hlt => wrapIndex_of_lt h hlt,
    fun index length h => Value.wrapIndex_eq_error_iff.2 ⟨h, rfl⟩,
    fun index length h => wrapIndexWord?_eq index h, ?_⟩
  intro symbol hsymbol container hcontainer x
  have haccess (y : Float) : apply symbol [container, .number y] scope =
      container.element symbol (.number y) := by
    rw [apply_elementAccess _ _ _ hsymbol]
    exact Value.access_eq_element hcontainer.isContainer nofun
  simp only [haccess, ← Number.toIndex_eq_saturated]
  refine ⟨Value.element_number hcontainer x, fun y hxy => ?_⟩
  have hindex : Number.toIndex x = Number.toIndex y := by
    rw [Number.toIndex_eq_saturated, Number.toIndex_eq_saturated, hxy]
  rw [Value.element_eq hcontainer, Value.element_eq hcontainer, Value.position, hindex]
  rfl

/-- The least word, the last index and the one after it, a fraction and its integer part, the infinities
and the undefined number. -/
theorem index_wrapping_exact_extremes :
    let infinity (negative : Bool) : Value := .number (Number.ofMagnitude negative Number.infinity)
    wrapIndex (-2 ^ 63) 3 = .ok 1 ∧ raised 3 (-2 ^ 63) = 1 ∧
      wrapIndex 2 3 = .ok 2 ∧ wrapIndex 3 3 = .error (.outOfBounds 3 3) ∧
      (∃ answer, wrapIndexWord? Int64.minValue 3 = some answer ∧
        answer.map UInt64.toNat = .ok 1) ∧
      apply "@" [.text "aé", .number (-1.75)] Variables.empty =
        apply "@" [.text "aé", .number (-1)] Variables.empty ∧
      apply "@" [.text "aé", infinity true] Variables.empty = .ok (some (.text "a")) ∧
      apply "AT" [.text "aé", infinity false] Variables.empty =
        .error (.outOfBounds Number.indexLimit 2) ∧
      apply "@" [.sequence [], .number Number.undefined] Variables.empty =
        .error (.outOfBounds 0 0) := by
  intro infinity
  obtain ⟨hneg, hinside, houtside, hword, haccess⟩ := index_wrapping_exact Variables.empty
  obtain ⟨p, hwrap, hraised, hunique⟩ := hneg (-2 ^ 63) 3 (by decide) (by decide)
  obtain rfl : 1 = p := (hunique 1).2 ⟨by decide, by decide⟩
  have hparts : Number.parts (-1.75) = .finite true (7 * 2 ^ 50) (-52) := by decide
  have hparts' : Number.parts (-1) = .finite true (2 ^ 52) (-52) := by decide
  have hwhole : Number.whole (-1.75) = Number.whole (-1) := by
    simp only [Number.whole, hparts, hparts', Number.truncate_signed]
    decide
  exact ⟨hwrap, hraised.symm, hinside 2 3 (by decide) (by decide), houtside 3 3 (.inr (by decide)),
    hword Int64.minValue 3 (by decide),
    (haccess "@" (.inl rfl) (.text "aé") (.inr rfl) (-1.75)).2 (-1) hwhole, rfl, rfl, rfl⟩

end Formula
