import Formula.Proofs.Json.Lossless
import Formula.Proofs.Json.Norm
import Formula.Proofs.Operator.RunningSum
/-!
# Sums and differences of documents

Collections can be added and removed from each other on their documents: `combine` takes two documents
to their values, applies an operator, and takes the result back. Objects are merged at the top only,
arrays are put one after the other, and what is removed from an array is what is the same document as an
item of the other one, however the fields of objects are ordered.

Results:
* `same_ofValue`: equality of values, on their documents.
* `ofValue_merge`, `ofValue_eraseAll`, `ofValue_removeItems`: results of operators, written.
* `operators_on_documents`: sums and differences.
-/
namespace Formula

/-! ## Equality of documents -/

namespace Json

mutual

/-- Whether two documents are the same: numbers by `==`, arrays item by item, and objects name by name,
in any order of their fields. -/
def same : Json → Json → Bool
  | .null, .null => true
  | .boolean a, .boolean b => a == b
  | .integer m, .integer n => m == n
  | .real x, .real y => x == y
  | .string s, .string t => s == t
  | .array is, .array js => sameItems is js
  | .object fs, .object gs => fs.length == gs.length && sameFields fs gs
  | _, _ => false

/-- Whether items are the same one by one. -/
def sameItems : List Json → List Json → Bool
  | [], [] => true
  | i :: is, j :: js => same i j && sameItems is js
  | _, _ => false

/-- Whether each field on the left is found on the right. -/
def sameFields : List (String × Json) → List (String × Json) → Bool
  | [], _ => true
  | (name, i) :: fs, gs => (Assoc.get? gs name).any (same i) && sameFields fs gs

end

theorem same_object (fs gs : List (String × Json)) : same (.object fs) (.object gs) =
    (fs.length == gs.length && fs.all fun f => (Assoc.get? gs f.1).any (same f.2)) := by
  have hfields : sameFields fs gs = fs.all fun f => (Assoc.get? gs f.1).any (same f.2) := by
    induction fs with
    | nil => rfl
    | cons f fs ih => rw [sameFields, ih, List.all_cons]
  rw [same, hfields]

/-- The order of fields does not count. -/
theorem same_object_perm {fs fs' gs gs' : List (String × Json)} (hfs : fs.Perm fs')
    (hgs : gs.Perm gs') (hnodup : (gs.map (·.1)).Nodup) :
    same (.object fs) (.object gs) = same (.object fs') (.object gs') := by
  rw [same_object, same_object, hfs.length_eq, hgs.length_eq, hfs.all_eq]
  simp only [Assoc.get?_perm hgs hnodup]

def string? : Json → Option String
  | .string s => some s
  | _ => none

def strings (items : List Json) : List String := items.filterMap string?

end Json

/-! ## Values of documents -/

namespace Value

variable {v w : Value} {vs ws : List Value}

theorem Canonical.wellKeyed (h : v.Canonical) : v.WellKeyed := h.canon_eq ▸ wellKeyed_canon v

theorem ofValue_number {x : Float} (h : Number.isFinite x = true) :
    Json.ofValue (.number x) = .real x :=
  if_pos h

theorem ofValue_keyed {fields : List (String × Value)} (ho : Fields.Ordered fields) :
    Json.ofValue (.mapping (keyed fields)) =
      .object (fields.map fun f => (f.1, Json.ofValue f.2)) := by
  rw [ofValue_mapping, named_keyed, Fields.ofList_eq_self ho]

theorem exists_of_ofValue_array {is : List Json} (h : Json.ofValue v = .array is) :
    ∃ vs, v = .sequence vs ∧ is = vs.map Json.ofValue := by
  cases v with
  | sequence vs =>
    rw [ofValue_sequence] at h
    cases h
    exact ⟨vs, rfl, rfl⟩
  | number x =>
    rw [Json.ofValue] at h
    split at h <;> cases h
  | boolean | text => cases h
  | mapping => cases h

theorem Canonical.exists_of_ofValue_object (hv : v.Canonical) {fs : List (String × Json)}
    (h : Json.ofValue v = .object fs) : ∃ gs, v = .mapping (keyed gs) ∧ Fields.Ordered gs ∧
      fs = gs.map fun g => (g.1, Json.ofValue g.2) := by
  cases hv with
  | @mapping gs ho _ =>
    rw [ofValue_keyed ho] at h
    cases h
    exact ⟨gs, rfl, ho, rfl⟩
  | number hx =>
    rw [ofValue_number hx] at h
    cases h
  | boolean | text => cases h
  | sequence => cases h

theorem sameItems_map
    (h : ∀ v ∈ vs, ∀ w ∈ ws, Json.same (Json.ofValue v) (Json.ofValue w) = (v == w)) :
    Json.sameItems (vs.map Json.ofValue) (ws.map Json.ofValue) = (sequence vs == sequence ws) := by
  induction vs generalizing ws with
  | nil => cases ws <;> rfl
  | cons v vs ih =>
    cases ws with
    | nil => rfl
    | cons w ws =>
      rw [List.map_cons, List.map_cons, Json.sameItems, h v (by simp) w (by simp), beq_sequence_cons,
        ih fun v hv w hw => h v (by simp [hv]) w (by simp [hw])]

theorem same_map {fs gs : List (String × Value)}
    (h : ∀ f ∈ fs, ∀ g ∈ gs, Json.same (Json.ofValue f.2) (Json.ofValue g.2) = (g.2 == f.2)) :
    Json.same (.object (fs.map fun f => (f.1, Json.ofValue f.2)))
        (.object (gs.map fun g => (g.1, Json.ofValue g.2))) =
      (mapping (keyed fs) == mapping (keyed gs)) := by
  have hfound : ∀ f ∈ fs, ((Assoc.get? gs f.1).map Json.ofValue).any (Json.same (Json.ofValue f.2)) =
      (Mapping.get? (keyed gs) (.text f.1)).any (· == f.2) := by
    intro f hf
    rw [get?_keyed]
    cases hg : Assoc.get? gs f.1 with
    | none => rfl
    | some w => exact h f hf (f.1, w) (Assoc.mem_of_get?_eq_some hg)
  have hall : (fs.all fun f => ((Assoc.get? gs f.1).map Json.ofValue).any
      (Json.same (Json.ofValue f.2))) =
      (keyed fs).all fun e => (Mapping.get? (keyed gs) e.1).any (· == e.2) := by
    rw [keyed, List.all_map, Bool.eq_iff_iff, List.all_eq_true, List.all_eq_true]
    exact forall₂_congr fun f hf => by rw [hfound f hf]; rfl
  have hlength (fs : List (String × Value)) : (keyed fs).length = fs.length := List.length_map _
  rw [Json.same_object, beq_mapping, hlength, hlength, List.length_map, List.length_map,
    List.all_map]
  simp only [Function.comp_def, Fields.get?_map]
  rw [hall]
  rfl

/-- Values of documents are equal when the documents are the same. -/
theorem same_ofValue (hv : v.Canonical) (hw : w.Canonical) :
    Json.same (Json.ofValue v) (Json.ofValue w) = (v == w) := by
  induction hv generalizing w with
  | number hx =>
    rw [ofValue_number hx]
    cases hw with
    | number hy =>
      rw [ofValue_number hy]
      rfl
    | _ => rfl
  | boolean b =>
    cases hw with
    | number hy =>
      rw [ofValue_number hy]
      rfl
    | _ => rfl
  | text s =>
    cases hw with
    | number hy =>
      rw [ofValue_number hy]
      rfl
    | _ => rfl
  | sequence _ ih =>
    cases hw with
    | number hy =>
      rw [ofValue_number hy]
      rfl
    | sequence hws =>
      rw [ofValue_sequence, ofValue_sequence]
      exact sameItems_map fun v hv w hw => ih v hv (hws w hw)
    | _ => rfl
  | mapping ho hfs ih =>
    cases hw with
    | number hy =>
      rw [ofValue_number hy]
      rfl
    | mapping ho' hgs =>
      rw [ofValue_keyed ho, ofValue_keyed ho']
      refine same_map fun f hf g hg => ?_
      rw [ih f hf (hgs g hg), coherent_wellKeyed.comm (hfs f hf).wellKeyed (hgs g hg).wellKeyed]
    | _ => rfl

theorem string?_ofValue (hw : w.Canonical) (s : String) :
    Json.string? (Json.ofValue w) = some s ↔ (text s == w) = true := by
  cases hw with
  | number hx =>
    rw [ofValue_number hx]
    exact iff_of_false nofun Bool.false_ne_true
  | text t =>
    have hbeq : (text s == text t) = (s == t) := rfl
    rw [hbeq, beq_iff_eq, eq_comm (a := s)]
    exact Option.some_inj
  | _ => exact iff_of_false nofun Bool.false_ne_true

theorem any_beq_text (hws : ∀ w ∈ ws, w.Canonical) (s : String) :
    ws.any (text s == ·) = decide (s ∈ Json.strings (ws.map Json.ofValue)) := by
  rw [Bool.eq_iff_iff, List.any_eq_true, decide_eq_true_iff, Json.strings, List.filterMap_map,
    List.mem_filterMap]
  exact exists_congr fun w => and_congr_right fun hw => (string?_ofValue (hws w hw) s).symm

/-! ## Results of operators -/

section Results

variable {gs hs : List (String × Value)}

theorem exists_text_of_mem_keyed {e : Value × Value} (h : e ∈ keyed gs) : ∃ s, e.1 = .text s := by
  obtain ⟨g, -, rfl⟩ := List.mem_map.1 h
  exact ⟨g.1, rfl⟩

/-- The fields of a merge, by name. -/
theorem ofValue_merge (hg : (mapping (keyed gs)).WellKeyed) (hh : (mapping (keyed hs)).WellKeyed) :
    ∃ fields, Json.ofValue (.mapping (Mapping.merge (keyed gs) (keyed hs))) = .object fields ∧
      Fields.Ordered fields ∧ ∀ name, Assoc.get? fields name =
        ((Assoc.get? hs name).or (Assoc.get? gs name)).map Json.ofValue := by
  have hmerge := Mapping.wellKeyed_merge hg ((wellKeyed_mapping (keyed hs)).1 hh).2
  have hkeys : ∀ e ∈ Mapping.merge (keyed gs) (keyed hs), ∃ s, e.1 = text s :=
    Mapping.keys_merge (p := fun k => ∃ s, k = text s) (fun _ he => exists_text_of_mem_keyed he)
      fun _ he => exists_text_of_mem_keyed he
  refine ⟨_, ofValue_mapping _, (Fields.ordered_ofList _).map _, fun name => ?_⟩
  rw [Fields.get?_map, get?_ofList_named ((wellKeyed_mapping _).1 hmerge).1 hkeys,
    Mapping.get?_merge hg hh (wellKeyed_text name), get?_keyed, get?_keyed]

/-- The fields that removing leaves. -/
theorem ofValue_eraseAll (ho : Fields.Ordered gs) (hg : (mapping (keyed gs)).WellKeyed)
    (hws : ∀ w ∈ ws, w.Canonical) :
    Json.ofValue (.mapping (Mapping.eraseAll (keyed gs) ws)) =
      .object ((gs.map fun g => (g.1, Json.ofValue g.2)).filter fun f =>
        f.1 ∉ Json.strings (ws.map Json.ofValue)) := by
  have hentries : Mapping.eraseAll (keyed gs) ws =
      keyed (gs.filter fun g => g.1 ∉ Json.strings (ws.map Json.ofValue)) := by
    rw [Mapping.eraseAll_eq_filter hg fun w hw => (hws w hw).wellKeyed, keyed, keyed,
      List.filter_map]
    simp only [Function.comp_def, any_beq_text hws, decide_not]
  have hsub := ho.sublist (gs.filter_sublist (p := fun g => g.1 ∉ Json.strings (ws.map Json.ofValue)))
  rw [hentries, ofValue_keyed hsub, List.filter_map]
  rfl

/-- The items that removing leaves. -/
theorem map_ofValue_removeItems (hvs : ∀ v ∈ vs, v.Canonical) (hws : ∀ w ∈ ws, w.Canonical) :
    (Operator.removeItems vs (.sequence ws)).map Json.ofValue =
      (vs.map Json.ofValue).filter fun i => !(ws.map Json.ofValue).any (Json.same i) := by
  rw [Operator.removeItems, List.filter_map]
  refine congrArg (List.map _) (List.filter_congr fun v hv => ?_)
  rw [Function.comp_apply, any_beq_comm (fun w hw => (hws w hw).wellKeyed) (hvs v hv).wellKeyed,
    List.any_map]
  congr 1
  rw [Bool.eq_iff_iff, List.any_eq_true, List.any_eq_true]
  refine exists_congr fun w => and_congr_right fun hw => ?_
  rw [Function.comp_apply, same_ofValue (hvs v hv) (hws w hw)]

end Results

end Value

namespace Json

section Operators

variable {σ : Type} [Scope σ] (scope : σ)

/-- An operator between documents: on their values, and with a document as its result. -/
def combine (symbol : String) (a b : Json) : Except Fault (Option Json) := do
  let v ← a.toValue
  let w ← b.toValue
  let result ← apply symbol [v, w] scope
  return result.map ofValue

theorem combine_eq {a b : Json} {v w r : Value} (hv : a.toValue = .ok v) (hw : b.toValue = .ok w)
    {symbol : String} (h : apply symbol [v, w] scope = .ok (some r)) :
    combine scope symbol a b = .ok (some (ofValue r)) := by
  simp only [combine, hv, hw]
  show (apply symbol [v, w] scope >>= _) = _
  rw [h]
  rfl

end Operators

/-- **Operators on documents.** A sum of objects has the fields of both, and where both have a name it is
that of the right one, whole. A sum of arrays has the items of both; what is no array is appended to an
array as one item. An array removes from an object the fields that its strings name, and from an array
the items that are the same as one of its own, where the order of fields does not count. All numbers of
the results are doubles, and nothing else differs. -/
theorem operators_on_documents {σ : Type} [Scope σ] (scope : σ) {a b : Json} (ha : a.WellFormed)
    (hb : b.WellFormed) (hnull : ¬ Within .null a) (hnull' : ¬ Within .null b) :
    (∀ fs gs, a.norm = .object fs → b.norm = .object gs →
      ∃ hs, combine scope "+" a b = .ok (some (.object hs)) ∧ Fields.Ordered hs ∧
        ∀ name, Assoc.get? hs name = (Assoc.get? gs name).or (Assoc.get? fs name)) ∧
    (∀ is js, a.norm = .array is → b.norm = .array js →
      combine scope "+" a b = .ok (some (.array (is ++ js)))) ∧
    (∀ is, a.norm = .array is → (∀ js, b.norm ≠ .array js) →
      combine scope "+" a b = .ok (some (.array (is ++ [b.norm])))) ∧
    (∀ fs js, a.norm = .object fs → b.norm = .array js →
      combine scope "-" a b = .ok (some (.object (fs.filter fun f => f.1 ∉ strings js)))) ∧
    (∀ is js, a.norm = .array is → b.norm = .array js →
      combine scope "-" a b = .ok (some (.array (is.filter fun i => !js.any (same i))))) ∧
    ∀ fs fs' gs gs' : List (String × Json), fs.Perm fs' → gs.Perm gs' → (gs.map (·.1)).Nodup →
      same (.object fs) (.object gs) = same (.object fs') (.object gs') := by
  obtain ⟨v, hv⟩ := exists_toValue hnull
  obtain ⟨w, hw⟩ := exists_toValue hnull'
  have hcv := canonical_toValue ha hv
  have hcw := canonical_toValue hb hw
  rw [← ofValue_toValue ha hv, ← ofValue_toValue hb hw]
  refine ⟨?_, ?_, ?_, ?_, ?_, fun fs fs' gs gs' => same_object_perm⟩
  · intro fs gs hfs hgs
    obtain ⟨us, rfl, -, rfl⟩ := hcv.exists_of_ofValue_object hfs
    obtain ⟨ts, rfl, -, rfl⟩ := hcw.exists_of_ofValue_object hgs
    obtain ⟨hs, hwritten, hordered, hget⟩ := Value.ofValue_merge hcv.wellKeyed hcw.wellKeyed
    refine ⟨hs, ?_, hordered, fun name => ?_⟩
    · rw [combine_eq scope hv hw (apply_addition_mappings scope _ _), hwritten]
    · rw [hget, Fields.get?_map, Fields.get?_map, Option.map_or]
  · intro is js his hjs
    obtain ⟨us, rfl, rfl⟩ := Value.exists_of_ofValue_array his
    obtain ⟨ts, rfl, rfl⟩ := Value.exists_of_ofValue_array hjs
    rw [combine_eq scope hv hw (apply_addition_sequences scope _ _), Value.ofValue_sequence,
      List.map_append]
  · intro is his hjs
    obtain ⟨us, rfl, rfl⟩ := Value.exists_of_ofValue_array his
    have hsingle : w.addedItems = [w] := by
      cases w with
      | sequence ts => exact absurd (Value.ofValue_sequence ts) (hjs _)
      | _ => rfl
    rw [combine_eq scope hv hw (apply_addition_sequence scope _ _), Value.ofValue_sequence, hsingle,
      List.map_append, List.map_singleton]
  · intro fs js hfs hjs
    obtain ⟨us, rfl, hordered, rfl⟩ := hcv.exists_of_ofValue_object hfs
    obtain ⟨ts, rfl, rfl⟩ := Value.exists_of_ofValue_array hjs
    have hts : ∀ t ∈ ts, t.Canonical := by
      cases hcw with
      | sequence hts => exact hts
    rw [combine_eq scope hv hw (apply_subtraction_mapping scope _ _)]
    exact congrArg (fun j => Except.ok (some j)) (Value.ofValue_eraseAll hordered hcv.wellKeyed hts)
  · intro is js his hjs
    obtain ⟨us, rfl, rfl⟩ := Value.exists_of_ofValue_array his
    obtain ⟨ts, rfl, rfl⟩ := Value.exists_of_ofValue_array hjs
    have hus : ∀ u ∈ us, u.Canonical := by
      cases hcv with
      | sequence hus => exact hus
    have hts : ∀ t ∈ ts, t.Canonical := by
      cases hcw with
      | sequence hts => exact hts
    rw [combine_eq scope hv hw (apply_subtraction_sequence scope _ _), Value.ofValue_sequence,
      Value.map_ofValue_removeItems hus hts]

/-- A field that both objects have, an object among items, the zeros, and a name inside of an array. -/
theorem operators_on_documents_nested :
    let a : Json := .object [("a", .integer 1), ("b", .object [("x", .integer 1)])]
    let b : Json := .object [("b", .object [("y", .integer 2)]), ("c", .string "a")]
    let c : Json := .array [.integer 1, .object [("x", .integer 1), ("y", .array [])], .real (-0.0)]
    let d : Json := .array [.object [("x", .real 1.0), ("y", .array [])], .integer 0, .string "b",
      .array [.string "a"]]
    (∃ hs, combine Variables.empty "+" a b = .ok (some (.object hs)) ∧
      Assoc.get? hs "b" = some (.object [("y", .real 2)]) ∧ Assoc.get? hs "x" = none) ∧
      combine Variables.empty "+" c a = .ok (some (.array [.real 1,
        .object [("x", .real 1), ("y", .array [])], .real (-0.0), a.norm])) ∧
      combine Variables.empty "-" a d = .ok (some (.object [("a", .real 1)])) ∧
      combine Variables.empty "-" c d = .ok (some (.array [.real 1])) := by
  intro a b c d
  have hone : (Json.integer 1).WellFormed := .integer (by decide)
  have hempty : (Json.array []).WellFormed := .array nofun
  have hx : (Json.object [("x", .integer 1)]).WellFormed :=
    .object_of_pairwise (by decide) (by simpa using hone)
  have ha : a.WellFormed := .object_of_pairwise (by decide) (by simpa using ⟨hone, hx⟩)
  have hy : (Json.object [("y", .integer 2)]).WellFormed :=
    .object_of_pairwise (by decide) (by simpa using .integer (by decide))
  have hb : b.WellFormed := .object_of_pairwise (by decide) (by simpa using ⟨hy, .string "a"⟩)
  have hxy : (Json.object [("x", .integer 1), ("y", .array [])]).WellFormed :=
    .object_of_pairwise (by decide) (by simpa using ⟨hone, hempty⟩)
  have hc : c.WellFormed := .array (by simpa using ⟨hone, hxy, .real (by decide)⟩)
  have hxy' : (Json.object [("x", .real 1.0), ("y", .array [])]).WellFormed :=
    .object_of_pairwise (by decide) (by simpa using ⟨.real (by decide), hempty⟩)
  have hd : d.WellFormed := .array (by
    simpa using ⟨hxy', .integer (by decide), .string "b", .array (by simpa using .string "a")⟩)
  have hnull {j : Json} {v : Value} (h : j.toValue = .ok v) := not_within_null h
  obtain ⟨hmerge, -⟩ := operators_on_documents Variables.empty ha hb (hnull rfl) (hnull rfl)
  obtain ⟨-, -, happend, -⟩ := operators_on_documents Variables.empty hc ha (hnull rfl) (hnull rfl)
  obtain ⟨-, -, -, hnames, -⟩ := operators_on_documents Variables.empty ha hd (hnull rfl) (hnull rfl)
  obtain ⟨-, -, -, -, hitems, -⟩ :=
    operators_on_documents Variables.empty hc hd (hnull rfl) (hnull rfl)
  obtain ⟨hs, hsum, -, hget⟩ := hmerge _ _ rfl rfl
  exact ⟨⟨hs, hsum, hget "b", hget "x"⟩, happend _ rfl nofun, hnames _ _ rfl rfl, hitems _ _ rfl rfl⟩

end Json

end Formula
