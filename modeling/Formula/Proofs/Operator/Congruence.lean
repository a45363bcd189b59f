import Formula.Builtin
import Formula.Proofs.Mapping.Extensional
/-!
# Operators on collections respect equality

Equal operands of a sum, a difference or an access to elements need not be the same: zeros may differ
in sign, and mappings may list their entries in different orders. The results are equal all the same.
Only the text of a key that is not found tells the operands apart. (A text made of operands does too, so
nothing like this holds of operators that take their operands as texts.)

Results:
* `sum_congr`, `difference_congr`: sums and differences with a collection on the left.
* `toIndex_congr`, `element_congr`, `elements_congr`, `access_congr`: access to elements.
* `collections_respect_equality`: the operators of the language.
-/
namespace Formula

open Value (Alike)

/-! ## Sums and differences -/

namespace Operator

variable {b b' : Value}

theorem appendValue_congr {xs ys : List Value} (h : List.Forall₂ Alike xs ys) (hb : Alike b b') :
    List.Forall₂ Alike (appendValue xs b) (appendValue ys b') := by
  cases b with
  | sequence zs =>
    obtain ⟨zs', rfl⟩ := hb.exists_sequence
    exact List.rel_append h (Value.alike_sequence.1 hb)
  | number | boolean | text | mapping =>
    have hkind := hb.kind_eq
    cases b' <;> cases hkind
    exact List.rel_append h (.cons hb .nil)

theorem removeItems_congr {xs ys : List Value} (h : List.Forall₂ Alike xs ys) (hb : Alike b b') :
    List.Forall₂ Alike (removeItems xs b) (removeItems ys b') := by
  cases b with
  | sequence zs =>
    obtain ⟨zs', rfl⟩ := hb.exists_sequence
    refine List.rel_filter ?_ h
    intro x y hxy
    simp only [Value.any_beq_congr (Value.alike_sequence.1 hb) hxy]
  | number | boolean | text | mapping =>
    have hkind := hb.kind_eq
    cases b' <;> cases hkind
    refine List.rel_filter ?_ h
    intro x y hxy
    simp only [bne, hxy.beq_congr hb]

theorem removeKeys_congr {m n : Mapping} (h : Alike (.mapping m) (.mapping n)) (hb : Alike b b') :
    Alike (.mapping (removeKeys m b)) (.mapping (removeKeys n b')) := by
  cases b with
  | sequence zs =>
    obtain ⟨zs', rfl⟩ := hb.exists_sequence
    exact Mapping.alike_eraseAll h (Value.alike_sequence.1 hb)
  | number | boolean | text | mapping =>
    have hkind := hb.kind_eq
    cases b' <;> cases hkind
    exact Mapping.alike_eraseAll h (.cons hb .nil)

end Operator

/-- An arithmetic whose meanings for collections give equal results for equal operands, and the same
faults. -/
structure Arithmetic.Respects (f : Arithmetic) : Prop where
  sequence : ∀ {xs ys b b'}, List.Forall₂ Alike xs ys → Alike b b' →
    Both Alike Eq (f.sequence xs b) (f.sequence ys b')
  mapping : ∀ {m n b b'}, Alike (.mapping m) (.mapping n) → Alike b b' →
    Both Alike Eq (f.mapping m b) (f.mapping n b')

theorem Arithmetic.Respects.apply {f : Arithmetic} (hf : f.Respects) {a a' b b' : Value}
    (ha : Alike a a') (hb : Alike b b') (hc : a.kind = .sequence ∨ a.kind = .mapping) :
    Both Alike Eq (f.apply a b) (f.apply a' b') := by
  cases a with
  | number | boolean | text => simp [Value.kind] at hc
  | sequence xs =>
    obtain ⟨ys, rfl⟩ := ha.exists_sequence
    exact hf.sequence (Value.alike_sequence.1 ha) hb
  | mapping m =>
    obtain ⟨n, rfl⟩ := ha.exists_mapping
    exact hf.mapping ha hb

namespace Operator

theorem sum_congr : sum.Respects where
  sequence h hb := .ok (Value.alike_sequence.2 (appendValue_congr h hb))
  mapping {m n b b'} h hb := by
    cases b with
    | mapping p =>
      obtain ⟨p', rfl⟩ := hb.exists_mapping
      exact .ok (Mapping.alike_merge h hb)
    | number | boolean | text | sequence =>
      have hkind := hb.kind_eq
      cases b' <;> cases hkind
      exact .error rfl

theorem difference_congr : difference.Respects where
  sequence h hb := .ok (Value.alike_sequence.2 (removeItems_congr h hb))
  mapping h hb := .ok (removeKeys_congr h hb)

end Operator

/-! ## Access to elements -/

/-- Equal numbers cut off to the same integer; a zero has one whatever its sign. -/
theorem Number.toIndex_congr {x y : Float} (h : (x == y) = true) : toIndex x = toIndex y := by
  have hsame := (beq_iff_same x y).1 h
  unfold toIndex
  cases hx : parts x with
  | undefined =>
    rw [hx] at hsame
    exact hsame.elim
  | infinite s =>
    cases hy : parts y with
    | undefined | finite =>
      rw [hx, hy] at hsame
      exact hsame.elim
    | infinite t =>
      rw [hx, hy] at hsame
      have hst : s = t := hsame
      rw [hst]
  | finite s m e =>
    cases hy : parts y with
    | undefined | infinite =>
      rw [hx, hy] at hsame
      exact hsame.elim
    | finite t n f =>
      rw [hx, hy] at hsame
      obtain ⟨rfl, rfl, hs⟩ := hsame
      rcases hs with rfl | rfl
      · rfl
      · simp

theorem rel_getElem? {α β : Type} {R : α → β → Prop} {xs : List α} {ys : List β}
    (h : List.Forall₂ R xs ys) (i : Nat) : Option.Rel R xs[i]? ys[i]? := by
  induction h generalizing i with
  | nil => exact .none
  | cons hxy _ ih =>
    cases i with
    | zero => exact .some hxy
    | succ i => exact ih i

namespace Value

variable {operator : String} {a a' i i' : Value}

theorem position_congr (hi : Alike i i') (length : Nat) :
    i.position operator length = i'.position operator length := by
  cases i with
  | number x =>
    obtain ⟨y, rfl, hxy⟩ := eq_number_of_beq hi.equal
    rw [position, position, Number.toIndex_congr hxy]
  | boolean | text | sequence | mapping =>
    have hkind := hi.kind_eq
    cases i' <;> cases hkind
    rfl

theorem element_congr (ha : Alike a a') (hi : Alike i i') :
    Both (Option.Rel Alike) Eq (a.element operator i) (a'.element operator i') := by
  cases a with
  | number x =>
    obtain ⟨y, rfl, -⟩ := eq_number_of_beq ha.equal
    exact .error rfl
  | boolean c =>
    rw [eq_boolean_of_beq ha.equal]
    exact .error rfl
  | text s =>
    rw [eq_text_of_beq ha.equal]
    simp only [element, position_congr hi]
    cases i'.position operator s.toList.length with
    | error f => exact .error rfl
    | ok p =>
      refine .ok ?_
      cases s.toList[p]? with
      | none => exact .none
      | some c => exact .some (alike_self (wellKeyed_text _) (defined_text _))
  | sequence xs =>
    obtain ⟨ys, rfl⟩ := ha.exists_sequence
    have hitems := alike_sequence.1 ha
    simp only [element, position_congr hi, hitems.length_eq]
    cases i'.position operator ys.length with
    | error f => exact .error rfl
    | ok p => exact .ok (rel_getElem? hitems p)
  | mapping m =>
    obtain ⟨n, rfl⟩ := ha.exists_mapping
    exact .ok (Mapping.alike_get? ha hi)

end Value

/-- The same fault, but for the text of a key that is not found. -/
def Fault.SameButKey (f g : Fault) : Prop :=
  f = g ∨ ∃ key key', f = .keyNotFound key ∧ g = .keyNotFound key'

namespace Value

variable {operator : String} {a a' i i' : Value}

theorem elements_congr (ha : Alike a a') {is js : List Value} (h : List.Forall₂ Alike is js) :
    Both (List.Forall₂ Alike) Fault.SameButKey (a.elements operator is)
      (a'.elements operator js) := by
  refine Both.mapM (fun i i' hi => ?_) h
  refine ((element_congr ha hi).imp (fun _ _ => id) fun _ _ => .inl).bind ?_
  intro v? w? hvw
  cases hvw with
  | some hvw => exact .ok hvw
  | none => exact .error (.inr ⟨_, _, rfl, rfl⟩)

theorem access_congr (ha : Alike a a') (hi : Alike i i') :
    Both (Option.Rel Alike) Fault.SameButKey (a.access operator i) (a'.access operator i') := by
  have hcontainer : a.isContainer = a'.isContainer := by
    have hkind := ha.kind_eq
    cases a <;> cases a' <;> cases hkind <;> rfl
  unfold access
  rw [← hcontainer, ← ha.kind_eq]
  split
  · cases i with
    | sequence is =>
      obtain ⟨js, rfl⟩ := hi.exists_sequence
      refine (elements_congr ha (alike_sequence.1 hi)).bind fun vs ws hvw => ?_
      exact .ok (.some (alike_sequence.2 hvw))
    | number | boolean | text | mapping =>
      have hkind := hi.kind_eq
      have helement : Both (Option.Rel Alike) Eq (a.element operator _) (a'.element operator i') :=
        element_congr ha hi
      cases i' <;> cases hkind
      exact helement.imp (fun _ _ => id) fun _ _ => .inl
  · exact .error (.inl rfl)

end Value

/-! ## The language -/

section Apply

variable {σ : Type} [Scope σ] (scope : σ) (a b : Value)

theorem apply_addition : apply "+" [a, b] scope = (Operator.sum.apply a b).map some := rfl

theorem apply_subtraction :
    apply "-" [a, b] scope = (Operator.difference.apply a b).map some := rfl

theorem apply_elementAccess {symbol : String} (h : symbol = "@" ∨ symbol = "AT") :
    apply symbol [a, b] scope = a.access symbol b := by
  rcases h with rfl | rfl <;> rfl

end Apply

/-- **Operators on collections respect equality.** Of equal well-keyed operands with a collection on the
left, sums and differences are equal, or there are none for the same reason. Elements of equal values at
equal indices are equal as well, or they are absent on both sides, or there are none for the same
reason, where only the text of a missing key may differ. -/
theorem collections_respect_equality {σ : Type} [Scope σ] (scope : σ) {a a' b b' : Value}
    (ha : a.WellKeyed) (ha' : a'.WellKeyed) (hb : b.WellKeyed) (hb' : b'.WellKeyed)
    (haa : (a == a') = true) (hbb : (b == b') = true) :
    (a.kind = .sequence ∨ a.kind = .mapping → ∀ symbol ∈ ["+", "-"],
      Both (fun v? w? => ∃ v w, v? = some v ∧ w? = some w ∧ (v == w) = true) Eq
        (apply symbol [a, b] scope) (apply symbol [a', b'] scope)) ∧
    (∀ symbol ∈ ["@", "AT"],
      Both (Option.Rel fun v w => (v == w) = true) Fault.SameButKey
        (apply symbol [a, b] scope) (apply symbol [a', b'] scope)) := by
  have ha : Alike a a' := ⟨ha, ha', haa⟩
  have hb : Alike b b' := ⟨hb, hb', hbb⟩
  refine ⟨?_, ?_⟩
  · intro hc symbol hsymbol
    have hsome : ∀ {x y : Except Fault Value}, Both Alike Eq x y →
        Both (fun v? w? => ∃ v w, v? = some v ∧ w? = some w ∧ (v == w) = true) Eq
          (x.map some) (y.map some) := by
      intro x y h
      cases h with
      | ok h => exact .ok ⟨_, _, rfl, rfl, h.equal⟩
      | error h => exact .error h
    rcases List.mem_pair.1 hsymbol with rfl | rfl
    · rw [apply_addition, apply_addition]
      exact hsome (Operator.sum_congr.apply ha hb hc)
    · rw [apply_subtraction, apply_subtraction]
      exact hsome (Operator.difference_congr.apply ha hb hc)
  · intro symbol hsymbol
    have hsymbol := List.mem_pair.1 hsymbol
    rw [apply_elementAccess _ _ _ hsymbol, apply_elementAccess _ _ _ hsymbol]
    refine (Value.access_congr ha hb).imp ?_ fun _ _ => id
    intro v? w? h
    cases h with
    | some h => exact .some h.equal
    | none => exact .none

/-- The entries are listed in different orders and the zeros differ in sign. The faults name the same
missing key with different texts. -/
theorem collections_respect_equality_permuted :
    let a : Value := .mapping [(.number 0.0, .sequence [.number 1.0]), (.text "k", .number (-0.0))]
    let a' : Value := .mapping [(.text "k", .number 0.0), (.number (-0.0), .sequence [.number 1.0])]
    let b : Value := .sequence [.mapping [(.boolean true, .text "x"), (.boolean false, .text "y")]]
    let b' : Value := .sequence [.mapping [(.boolean false, .text "y"), (.boolean true, .text "x")]]
    a.WellKeyed ∧ a'.WellKeyed ∧ b.WellKeyed ∧ b'.WellKeyed ∧ (a == a') = true ∧ (b == b') = true ∧
      Both (fun v? w? => ∃ v w, v? = some v ∧ w? = some w ∧ (v == w) = true) Eq
        (apply "-" [a, b] Variables.empty) (apply "-" [a', b'] Variables.empty) ∧
      Both (Option.Rel fun v w => (v == w) = true) Fault.SameButKey
        (apply "@" [a, b] Variables.empty) (apply "@" [a', b'] Variables.empty) ∧
      apply "@" [a, b] Variables.empty = .error (.keyNotFound "{true=x, false=y}") ∧
      apply "@" [a', b'] Variables.empty = .error (.keyNotFound "{false=y, true=x}") := by
  intro a a' b b'
  have ha : a.WellKeyed := by simp [a, Assoc.Distinct]; decide
  have ha' : a'.WellKeyed := by simp [a', Assoc.Distinct]; decide
  have hb : b.WellKeyed := by simp [b, Assoc.Distinct]; decide
  have hb' : b'.WellKeyed := by simp [b', Assoc.Distinct]; decide
  have haa : (a == a') = true := by decide
  have hbb : (b == b') = true := by decide
  obtain ⟨hcollection, haccess⟩ :=
    collections_respect_equality Variables.empty ha ha' hb hb' haa hbb
  exact ⟨ha, ha', hb, hb', haa, hbb, hcollection (.inr rfl) "-" (by simp), haccess "@" (by simp),
    rfl, rfl⟩

end Formula
