import Formula.Operator.Coercion
import Formula.Operator.Element
import Formula.Proofs.Except
import Mathlib.Tactic.SplitIfs
/-!
# Unfit operands

Why an operand cannot be read the way an operator has to read it, without the reading: as a number, as
a truth value, or as an index into a container. Each reading fails exactly where there is a reason, and
reports it.

Results:
* `asNumber_eq_error_iff`, `asBoolean_eq_error_iff`: operands of calculations and of connectives.
* `exists_notNumber_iff`, `exists_notBoolean_iff`: which operands these are.
* `element_eq_error_iff`, `element_eq_ok_none`: one element, which only a mapping can be without.
* `elements_eq_ok_iff`, `elements_eq_error_iff`: several elements.
* `access_eq_error_iff`: element access.
-/
namespace Formula.Value

variable {operator : String} {v container index : Value} {f : Fault}

def IsCollection (v : Value) : Prop := v.kind = .sequence ∨ v.kind = .mapping

/-! ## Numbers and truth values -/

/-- Why an operand does not stand for a number. -/
inductive NotNumber (operator : String) : Value → Fault → Prop where
  | unreadable {s : String} (h : numberOfText? s = none) :
    NotNumber operator (.text s) (.unreadableNumber operator s)
  | collection {v : Value} (h : v.IsCollection) : NotNumber operator v (.unsupported operator v.kind)

/-- Why an operand is not a truth value. -/
inductive NotBoolean (operator : String) : Value → Fault → Prop where
  | scalar {v : Value} (h : v.kind = .number ∨ v.kind = .text) :
    NotBoolean operator v (.notBoolean operator v.kind)
  | collection {v : Value} (h : v.IsCollection) : NotBoolean operator v (.unsupported operator v.kind)

theorem asNumber_eq_error_iff : v.asNumber operator = .error f ↔ NotNumber operator v f := by
  constructor
  · intro h
    cases v with
    | number x => cases h
    | boolean b => cases h
    | text s =>
      rw [asNumber] at h
      split at h
      · cases h
      · next hs =>
        cases h
        exact .unreadable hs
    | sequence xs =>
      cases h
      exact .collection (.inl rfl)
    | mapping m =>
      cases h
      exact .collection (.inr rfl)
  · intro h
    cases h with
    | unreadable hs => rw [asNumber, hs]
    | collection hv => cases v <;> simp [IsCollection, kind] at hv <;> rfl

theorem asBoolean_eq_error_iff : v.asBoolean operator = .error f ↔ NotBoolean operator v f := by
  constructor
  · intro h
    cases v with
    | number x =>
      cases h
      exact .scalar (.inl rfl)
    | boolean b => cases h
    | text s =>
      cases h
      exact .scalar (.inr rfl)
    | sequence xs =>
      cases h
      exact .collection (.inl rfl)
    | mapping m =>
      cases h
      exact .collection (.inr rfl)
  · intro h
    cases h with
    | scalar hv => cases v <;> simp [kind] at hv <;> rfl
    | collection hv => cases v <;> simp [IsCollection, kind] at hv <;> rfl

theorem exists_notNumber_iff : (∃ f, NotNumber operator v f) ↔
    v.IsCollection ∨ ∃ s, v = .text s ∧ numberOfText? s = none := by
  constructor
  · rintro ⟨f, h⟩
    cases h with
    | unreadable hs => exact .inr ⟨_, rfl, hs⟩
    | collection hv => exact .inl hv
  · rintro (hv | ⟨s, rfl, hs⟩)
    · exact ⟨_, .collection hv⟩
    · exact ⟨_, .unreadable hs⟩

theorem exists_notBoolean_iff : (∃ f, NotBoolean operator v f) ↔ v.kind ≠ .boolean := by
  constructor
  · rintro ⟨f, h⟩ hv
    cases h with
    | scalar h => simp [hv] at h
    | collection h => simp [IsCollection, hv] at h
  · intro hv
    cases hk : v.kind with
    | boolean => exact absurd hk hv
    | number => exact ⟨_, .scalar (.inl hk)⟩
    | text => exact ⟨_, .scalar (.inr hk)⟩
    | sequence => exact ⟨_, .collection (.inl hk)⟩
    | mapping => exact ⟨_, .collection (.inr hk)⟩

/-! ## Positions -/

/-- Why an index means no position below the length. Negative numbers mean one wherever there is one. -/
inductive NoPosition (operator : String) (length : Nat) : Value → Fault → Prop where
  | kind {index : Value} (h : index.kind ≠ .number) :
    NoPosition operator length index (.unsupported operator index.kind)
  | bounds {x : Float} (h : length = 0 ∨ length ≤ Number.toIndex x) :
    NoPosition operator length (.number x) (.outOfBounds (Number.toIndex x) length)

theorem wrapIndex_eq_error_iff {i : Int} {length : Nat} :
    wrapIndex i length = .error f ↔
      (length = 0 ∨ length ≤ i) ∧ f = .outOfBounds i length := by
  have hmod : 0 < length → 0 ≤ i % length ∧ i % length < length := fun h =>
    ⟨Int.emod_nonneg i (by omega), Int.emod_lt_of_pos i (by omega)⟩
  simp only [wrapIndex]
  split_ifs with hwrap hpos hpos
  · exact iff_of_false nofun (by omega)
  · exact absurd (hmod hwrap.2) hpos
  · exact iff_of_false nofun (by omega)
  · have hout : length = 0 ∨ length ≤ i := by omega
    rw [and_iff_right hout]
    exact ⟨fun h => (Except.error.inj h).symm, fun h => congrArg Except.error h.symm⟩

theorem lt_of_wrapIndex {i : Int} {length p : Nat} (h : wrapIndex i length = .ok p) : p < length := by
  simp only [wrapIndex] at h
  split_ifs at h with hwrap hpos hpos
  · cases h
    omega
  · cases h
    omega

theorem position_eq_error_iff {length : Nat} :
    index.position operator length = .error f ↔ NoPosition operator length index f := by
  constructor
  · intro h
    cases index with
    | number x =>
      obtain ⟨hx, rfl⟩ := wrapIndex_eq_error_iff.1 h
      exact .bounds hx
    | boolean | text | sequence | mapping =>
      cases h
      exact .kind nofun
  · intro h
    cases h with
    | kind hi => cases index <;> simp [Value.kind] at hi <;> rfl
    | bounds hx => exact wrapIndex_eq_error_iff.2 ⟨hx, rfl⟩

theorem lt_of_position {length p : Nat} (h : index.position operator length = .ok p) :
    p < length := by
  cases index with
  | number x => exact lt_of_wrapIndex h
  | boolean | text | sequence | mapping => cases h

/-! ## Elements -/

/-- Why an index finds no element of a container. -/
inductive NoElement (operator : String) : Value → Value → Fault → Prop where
  | item {items : List Value} {index : Value} {f : Fault}
    (h : NoPosition operator items.length index f) : NoElement operator (.sequence items) index f
  | char {s : String} {index : Value} {f : Fault}
    (h : NoPosition operator s.toList.length index f) : NoElement operator (.text s) index f
  | key {m : Mapping} {index : Value} (h : Mapping.get? m index = none) :
    NoElement operator (.mapping m) index (.keyNotFound index.toText)

/-- Why there is no access to a container by an index, or by a sequence of them. One key that is not
in a mapping is no reason; among several it is. -/
inductive NoAccess (operator : String) : Value → Value → Fault → Prop where
  | container {container index : Value} (h : container.isContainer = false) :
    NoAccess operator container index (.unsupported operator container.kind)
  | one {container index : Value} {f : Fault} (hi : index.kind ≠ .sequence)
    (hc : container.kind ≠ .mapping) (h : NoElement operator container index f) :
    NoAccess operator container index f
  | several {container : Value} {indices : List Value} {f : Fault}
    (h : Leftmost (NoElement operator container) indices f) :
    NoAccess operator container (.sequence indices) f

theorem NoElement.ne_unknownOperator {symbol : String} {n : Nat}
    (h : NoElement operator container index f) : f ≠ .unknownOperator symbol n := by
  rintro rfl
  cases h with
  | item h => cases h
  | char h => cases h

theorem NoAccess.ne_unknownOperator {symbol : String} {n : Nat}
    (h : NoAccess operator container index f) : f ≠ .unknownOperator symbol n := by
  rintro rfl
  cases h with
  | one _ _ h => exact h.ne_unknownOperator rfl
  | several h =>
    obtain ⟨i, -, h⟩ := h.exists_mem
    exact h.ne_unknownOperator rfl

theorem element_eq_error_iff (hc : container.isContainer = true) :
    container.element operator index = .error f ↔
      container.kind ≠ .mapping ∧ NoElement operator container index f := by
  cases container with
  | number | boolean => cases hc
  | sequence items =>
    rw [element, bind_eq_error, position_eq_error_iff, or_iff_left nofun]
    constructor
    · intro h
      exact ⟨nofun, .item h⟩
    · rintro ⟨-, ⟨h⟩⟩
      exact h
  | text s =>
    simp only [element]
    rw [bind_eq_error, position_eq_error_iff, or_iff_left nofun]
    constructor
    · intro h
      exact ⟨nofun, .char h⟩
    · rintro ⟨-, _ | ⟨h⟩⟩
      exact h
  | mapping m => exact iff_of_false nofun fun h => h.1 rfl

/-- What has a position is there; only a mapping can be without. -/
theorem element_eq_ok_none (h : container.element operator index = .ok none) :
    ∃ m, container = .mapping m ∧ Mapping.get? m index = none := by
  cases container with
  | number | boolean => cases h
  | sequence items =>
    obtain ⟨p, hp, h⟩ := bind_eq_ok.1 h
    have hnone : items[p]? = none := Except.ok.inj h
    exact absurd (lt_of_position hp) (Nat.not_lt.2 (List.getElem?_eq_none_iff.1 hnone))
  | text s =>
    obtain ⟨p, hp, h⟩ := bind_eq_ok.1 h
    have hnone : s.toList[p]? = none := Option.map_eq_none_iff.1 (Except.ok.inj h)
    exact absurd (lt_of_position hp) (Nat.not_lt.2 (List.getElem?_eq_none_iff.1 hnone))
  | mapping m => exact ⟨m, rfl, Except.ok.inj h⟩

/-- Each index finds its own element. -/
theorem elements_eq_ok_iff {indices vs : List Value} :
    container.elements operator indices = .ok vs ↔
      List.Forall₂ (fun i v => container.element operator i = .ok (some v)) indices vs := by
  rw [elements, mapM_eq_ok_iff]
  constructor
  · intro h
    refine h.imp fun i v hv => ?_
    obtain ⟨found, hfound, hv⟩ := bind_eq_ok.1 hv
    cases found with
    | none => cases hv
    | some w =>
      cases hv
      exact hfound
  · intro h
    refine h.imp fun i v hv => ?_
    exact bind_eq_ok.2 ⟨some v, hv, rfl⟩

theorem elements_eq_error_iff {indices : List Value} (hc : container.isContainer = true) :
    container.elements operator indices = .error f ↔
      Leftmost (NoElement operator container) indices f := by
  refine mapM_eq_error_iff fun index f => ?_
  rw [bind_eq_error, element_eq_error_iff hc]
  constructor
  · rintro (⟨-, h⟩ | ⟨found, hfound, h⟩)
    · exact h
    · cases found with
      | some v => cases h
      | none =>
        obtain ⟨m, rfl, hm⟩ := element_eq_ok_none hfound
        cases h
        exact .key hm
  · intro h
    cases h with
    | item h => exact .inl ⟨nofun, .item h⟩
    | char h => exact .inl ⟨nofun, .char h⟩
    | key hm => exact .inr ⟨none, congrArg Except.ok hm, rfl⟩

theorem access_eq_error_iff :
    container.access operator index = .error f ↔ NoAccess operator container index f := by
  unfold access
  split
  · next hc =>
    split
    · next indices =>
      rw [bind_eq_error, elements_eq_error_iff hc, or_iff_left nofun]
      constructor
      · exact .several
      · intro h
        cases h with
        | container h => simp [hc] at h
        | one hi _ _ => exact absurd rfl hi
        | several h => exact h
    · next hi =>
      rw [element_eq_error_iff hc]
      constructor
      · rintro ⟨hm, h⟩
        refine .one ?_ hm h
        cases index with
        | sequence indices => exact absurd rfl (hi indices)
        | number | boolean | text | mapping => nofun
      · intro h
        cases h with
        | container h => simp [hc] at h
        | one _ hm h => exact ⟨hm, h⟩
        | several _ => exact absurd rfl (hi _)
  · next hc =>
    constructor
    · intro h
      cases h
      exact .container (by simpa using hc)
    · intro h
      cases h with
      | container _ => rfl
      | one _ _ h => cases h <;> exact absurd rfl hc
      | several h =>
        obtain ⟨i, -, h⟩ := h.exists_mem
        cases h <;> exact absurd rfl hc

end Formula.Value
