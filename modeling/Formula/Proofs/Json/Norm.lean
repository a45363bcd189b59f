import Formula.Proofs.Json.Canonical
/-!
# Documents with every number as a double

The value of a document has a double in place of every integer. Nothing else is lost: written again,
the value is the document, but for its integers.

Results:
* `exists_toValue`: a document without null has a value.
* `ofValue_toValue`: the document of that value.
-/
namespace Formula.Json

mutual

/-- The document with every integer replaced by the nearest double. -/
def norm : Json → Json
  | .integer n => .real (Number.ofInt n)
  | .array items => .array (normItems items)
  | .object fields => .object (normFields fields)
  | j => j

def normItems : List Json → List Json
  | [] => []
  | j :: js => norm j :: normItems js

def normFields : List (String × Json) → List (String × Json)
  | [] => []
  | (name, j) :: fs => (name, norm j) :: normFields fs

end

theorem norm_array (items : List Json) : norm (.array items) = .array (items.map norm) := by
  have hitems : normItems items = items.map norm := by
    induction items with
    | nil => rfl
    | cons j js ih => rw [normItems, ih, List.map_cons]
  rw [norm, hitems]

theorem norm_object (fields : List (String × Json)) :
    norm (.object fields) = .object (fields.map fun f => (f.1, norm f.2)) := by
  have hfields : normFields fields = fields.map fun f => (f.1, norm f.2) := by
    induction fields with
    | nil => rfl
    | cons f fs ih =>
      rw [normFields, ih]
      rfl
  rw [norm, hfields]

/-- Null is all that keeps a document from having a value. -/
theorem exists_toValue {j : Json} (h : ¬ Within .null j) : ∃ v, j.toValue = .ok v := by
  cases hv : j.toValue with
  | ok v => exact ⟨v, rfl⟩
  | error fault => exact absurd (toValue_eq_error_iff.1 hv).2 h

theorem ofValue_toValue {j : Json} (hj : j.WellFormed) {v : Value} (h : j.toValue = .ok v) :
    ofValue v = j.norm := by
  induction hj generalizing v with
  | null => cases h
  | boolean b =>
    cases h
    rfl
  | integer hn =>
    cases h
    exact if_pos (isFinite_of_isWord hn)
  | real hx =>
    cases h
    exact if_pos hx
  | string s =>
    cases h
    rfl
  | array _ ih =>
    obtain ⟨vs, rfl, hvs⟩ := exists_of_toValue_array h
    rw [Value.ofValue_sequence, norm_array]
    exact congrArg array (map_eq_map_of_forall₂ hvs fun j hj v _ hv => (ih j hj hv).symm).symm
  | object ho _ ih =>
    obtain ⟨gs, rfl, hordered, hgs⟩ := exists_of_toValue_object ho h
    rw [Value.ofValue_mapping, Value.named_keyed, Fields.ofList_eq_self hordered, norm_object]
    refine congrArg object (map_eq_map_of_forall₂ hgs fun f hf g _ hfg => ?_).symm
    rw [hfg.1, ih f hf hfg.2]

end Formula.Json
