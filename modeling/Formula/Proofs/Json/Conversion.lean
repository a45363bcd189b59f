import Formula.Json.Conversion
import Formula.Proofs.Except
import Formula.Proofs.Mapping.WellKeyed
/-!
# Values read from JSON

The fields of an object need not have different names: they are written into a mapping one after the
other, so the value of any document is well-keyed.

Results:
* `itemsToValues_eq_ok_iff`, `fieldsToEntries_eq_ok_iff`: the values of the parts, one by one.
* `wellKeyed_toValue`: the value of a document.
-/
namespace Formula.Json

theorem itemsToValues_eq_mapM (js : List Json) : itemsToValues js = js.mapM toValue := by
  induction js with
  | nil => rfl
  | cons j js ih => rw [itemsToValues, ih, List.mapM_cons]

theorem itemsToValues_eq_ok_iff {js : List Json} {vs : List Value} :
    itemsToValues js = .ok vs ↔ List.Forall₂ (fun j v => j.toValue = .ok v) js vs := by
  rw [itemsToValues_eq_mapM, mapM_eq_ok_iff]

theorem fieldsToEntries_eq_mapM (fs : List (String × Json)) :
    fieldsToEntries fs = fs.mapM fun f => f.2.toValue.map fun v => (.text f.1, v) := by
  induction fs with
  | nil => rfl
  | cons f fs ih =>
    rw [fieldsToEntries, ih, List.mapM_cons]
    cases f.2.toValue <;> rfl

theorem fieldsToEntries_eq_ok_iff {fs : List (String × Json)} {es : List (Value × Value)} :
    fieldsToEntries fs = .ok es ↔
      List.Forall₂ (fun f e => ∃ v, f.2.toValue = .ok v ∧ (.text f.1, v) = e) fs es := by
  simp only [fieldsToEntries_eq_mapM, mapM_eq_ok_iff, map_eq_ok]

/-! ## Keys -/

mutual

theorem wellKeyed_toValue : ∀ (j : Json) {v : Value}, j.toValue = .ok v → v.WellKeyed
  | .null, v, h => by cases h
  | .boolean b, v, h => by
    cases h
    exact Value.wellKeyed_boolean b
  | .integer n, v, h => by
    cases h
    exact Value.wellKeyed_number _
  | .real x, v, h => by
    cases h
    exact Value.wellKeyed_number x
  | .string s, v, h => by
    cases h
    exact Value.wellKeyed_text s
  | .array items, v, h => by
    obtain ⟨vs, hvs, hv⟩ := bind_eq_ok.1 h
    cases hv
    rw [Value.wellKeyed_sequence]
    exact wellKeyed_itemsToValues items hvs
  | .object fields, v, h => by
    obtain ⟨es, hes, hv⟩ := bind_eq_ok.1 h
    cases hv
    exact Mapping.wellKeyed_ofList (wellKeyed_fieldsToEntries fields hes)

theorem wellKeyed_itemsToValues : ∀ (items : List Json) {vs : List Value},
    itemsToValues items = .ok vs → ∀ v ∈ vs, v.WellKeyed
  | [], vs, h => by
    cases h
    intro v hv
    cases hv
  | j :: items, vs, h => by
    obtain ⟨v, hv, h⟩ := bind_eq_ok.1 h
    obtain ⟨rest, hrest, h⟩ := bind_eq_ok.1 h
    cases h
    rw [List.forall_mem_cons]
    exact ⟨wellKeyed_toValue j hv, wellKeyed_itemsToValues items hrest⟩

theorem wellKeyed_fieldsToEntries : ∀ (fields : List (String × Json)) {es : List (Value × Value)},
    fieldsToEntries fields = .ok es → ∀ e ∈ es, e.1.WellKeyed ∧ e.2.WellKeyed
  | [], es, h => by
    cases h
    intro e he
    cases he
  | (name, j) :: fields, es, h => by
    obtain ⟨v, hv, h⟩ := bind_eq_ok.1 h
    obtain ⟨rest, hrest, h⟩ := bind_eq_ok.1 h
    cases h
    rw [List.forall_mem_cons]
    exact ⟨⟨Value.wellKeyed_text name, wellKeyed_toValue j hv⟩,
      wellKeyed_fieldsToEntries fields hrest⟩

end

end Formula.Json
