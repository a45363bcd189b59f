import Formula.Json.Numeral
import Formula.Proofs.Json.Conversion
import Formula.Proofs.Json.Fields
import Formula.Proofs.Number.Bits
/-!
# Values that JSON can hold

Writing a value as JSON and reading it back loses what JSON cannot hold: numbers that are not finite
and keys that are no texts become texts, of entries that then share a key the last one counts, and the
entries come in the order of their keys. What is left is canonical, and nothing more is lost the next
time.

Results:
* `wellFormed_ofValue`, `toValue_ofValue`: what is written is a document, and read back it is `canon` of
  the value.
* `canonical_canon`, `Canonical.canon_eq`: what was read back is canonical, and stays as it is.
* `Json.canonical_toValue`: the value of any document that serialization can meet is canonical.
* `Json.not_within_null`, `Json.toValue_eq_error_iff`: what can be read does not contain null, and what
  cannot does.
-/
namespace Formula

/-! ## Documents -/

namespace Json

/-- `Within i j`: the document `i` is `j` or occurs in it, at any depth. -/
inductive Within : Json → Json → Prop where
  | self (j : Json) : Within j j
  | item {i j : Json} {items : List Json} (hj : j ∈ items) (h : Within i j) :
    Within i (.array items)
  | field {i : Json} {fields : List (String × Json)} {f : String × Json} (hf : f ∈ fields)
    (h : Within i f.2) : Within i (.object fields)

/-- The documents that there are: integers have 64 bits, doubles are finite, and an object has its
fields in the order of the bytes of their names, each name once. -/
inductive WellFormed : Json → Prop where
  | null : WellFormed .null
  | boolean (b : Bool) : WellFormed (.boolean b)
  | integer {n : Int} (h : isWord n = true) : WellFormed (.integer n)
  | real {x : Float} (h : Number.isFinite x = true) : WellFormed (.real x)
  | string (s : String) : WellFormed (.string s)
  | array {items : List Json} (h : ∀ j ∈ items, WellFormed j) : WellFormed (.array items)
  | object {fields : List (String × Json)} (ho : Fields.Ordered fields)
    (h : ∀ f ∈ fields, WellFormed f.2) : WellFormed (.object fields)

theorem WellFormed.object_of_pairwise {fields : List (String × Json)}
    (hnames : fields.Pairwise fun f g => f.1 < g.1) (h : ∀ f ∈ fields, f.2.WellFormed) :
    (Json.object fields).WellFormed :=
  .object (Fields.ordered_iff.2 hnames) h

theorem not_within_null {j : Json} {v : Value} (h : j.toValue = .ok v) : ¬ Within .null j := by
  intro hnull
  induction hnull generalizing v with
  | self => cases h
  | item hj _ ih =>
    obtain ⟨vs, hvs, -⟩ := bind_eq_ok.1 h
    obtain ⟨w, -, hw⟩ := exists_right_of_mem (itemsToValues_eq_ok_iff.1 hvs) hj
    exact ih hw
  | field hf _ ih =>
    obtain ⟨es, hes, -⟩ := bind_eq_ok.1 h
    obtain ⟨-, -, w, hw, -⟩ := exists_right_of_mem (fieldsToEntries_eq_ok_iff.1 hes) hf
    exact ih hw

mutual

theorem within_null_of_toValue : ∀ (j : Json) {fault : Fault}, j.toValue = .error fault →
    fault = .nullValue ∧ Within .null j
  | .null, fault, h => by
    cases h
    exact ⟨rfl, .self .null⟩
  | .array items, fault, h => by
    obtain h | ⟨vs, -, h⟩ := bind_eq_error.1 h
    · obtain ⟨hfault, j, hj, hnull⟩ := within_null_of_itemsToValues items h
      exact ⟨hfault, .item hj hnull⟩
    · cases h
  | .object fields, fault, h => by
    obtain h | ⟨es, -, h⟩ := bind_eq_error.1 h
    · obtain ⟨hfault, f, hf, hnull⟩ := within_null_of_fieldsToEntries fields h
      exact ⟨hfault, .field hf hnull⟩
    · cases h

theorem within_null_of_itemsToValues : ∀ (items : List Json) {fault : Fault},
    itemsToValues items = .error fault → fault = .nullValue ∧ ∃ j ∈ items, Within .null j
  | j :: items, fault, h => by
    obtain h | ⟨v, -, h⟩ := bind_eq_error.1 h
    · obtain ⟨hfault, hnull⟩ := within_null_of_toValue j h
      exact ⟨hfault, j, List.mem_cons_self, hnull⟩
    · obtain h | ⟨vs, -, h⟩ := bind_eq_error.1 h
      · obtain ⟨hfault, i, hi, hnull⟩ := within_null_of_itemsToValues items h
        exact ⟨hfault, i, List.mem_cons_of_mem j hi, hnull⟩
      · cases h

theorem within_null_of_fieldsToEntries : ∀ (fields : List (String × Json)) {fault : Fault},
    fieldsToEntries fields = .error fault → fault = .nullValue ∧ ∃ f ∈ fields, Within .null f.2
  | f :: fields, fault, h => by
    obtain h | ⟨v, -, h⟩ := bind_eq_error.1 h
    · obtain ⟨hfault, hnull⟩ := within_null_of_toValue f.2 h
      exact ⟨hfault, f, List.mem_cons_self, hnull⟩
    · obtain h | ⟨es, -, h⟩ := bind_eq_error.1 h
      · obtain ⟨hfault, g, hg, hnull⟩ := within_null_of_fieldsToEntries fields h
        exact ⟨hfault, g, List.mem_cons_of_mem f hg, hnull⟩
      · cases h

end

/-- A document has no value when it contains null, and for no other reason. -/
theorem toValue_eq_error_iff {j : Json} {fault : Fault} :
    j.toValue = .error fault ↔ fault = .nullValue ∧ Within .null j := by
  refine ⟨within_null_of_toValue j, ?_⟩
  intro ⟨hfault, hnull⟩
  cases h : j.toValue with
  | ok v => exact absurd hnull (not_within_null h)
  | error d => rw [hfault, (within_null_of_toValue j h).1]

end Json

namespace Value

def keyed (fields : List (String × Value)) : Mapping := fields.map fun f => (.text f.1, f.2)

/-- The entries of a mapping under the texts of their keys. -/
def named (es : Mapping) : List (String × Value) := es.map fun e => (e.1.toText, e.2)

mutual

/-- What is left of a value when it is written as JSON and read back. -/
def canon : Value → Value
  | .number x => if Number.isFinite x then .number x else .text (number x).toText
  | .boolean b => .boolean b
  | .text s => .text s
  | .sequence vs => .sequence (canonItems vs)
  | .mapping es => .mapping (keyed (Fields.ofList (canonEntries es)))

def canonItems : List Value → List Value
  | [] => []
  | v :: vs => canon v :: canonItems vs

def canonEntries : List (Value × Value) → List (String × Value)
  | [] => []
  | (k, v) :: es => (k.toText, canon v) :: canonEntries es

end

theorem canon_sequence (vs : List Value) : canon (.sequence vs) = .sequence (vs.map canon) := by
  have hitems : canonItems vs = vs.map canon := by
    induction vs with
    | nil => rfl
    | cons v vs ih => rw [canonItems, ih, List.map_cons]
  rw [canon, hitems]

theorem canon_mapping (es : Mapping) : canon (.mapping es) =
    .mapping (keyed ((Fields.ofList (named es)).map fun f => (f.1, canon f.2))) := by
  have hentries : canonEntries es = (named es).map fun f => (f.1, canon f.2) := by
    induction es with
    | nil => rfl
    | cons e es ih =>
      rw [canonEntries, ih]
      rfl
  rw [canon, hentries, Fields.ofList_map]

/-! ## Writing and reading -/

theorem distinct_keyed {fields : List (String × Value)} (h : Fields.Ordered fields) :
    Assoc.Distinct (keyed fields) := by
  rw [Fields.ordered_iff] at h
  refine List.pairwise_map.2 (h.imp ?_)
  intro f g hlt
  have hne : f.1 ≠ g.1 := fun heq => String.lt_irrefl _ (heq ▸ hlt)
  have hfg : (f.1 == g.1) = false := beq_eq_false_iff_ne.2 hne
  have hgf : (g.1 == f.1) = false := beq_eq_false_iff_ne.2 hne.symm
  exact ⟨hfg, hgf⟩

theorem get?_keyed (fields : List (String × Value)) (name : String) :
    Mapping.get? (keyed fields) (.text name) = Assoc.get? fields name := by
  induction fields with
  | nil => rfl
  | cons f fields ih =>
    have hcons : Mapping.get? (keyed (f :: fields)) (.text name) =
        if Value.text f.1 == .text name then some f.2 else Mapping.get? (keyed fields) (.text name) :=
      Assoc.get?_cons _ _ _
    rw [hcons, ih, Assoc.get?_cons]
    rfl

theorem ofValue_sequence (vs : List Value) :
    Json.ofValue (.sequence vs) = .array (vs.map Json.ofValue) := by
  have hitems : Json.itemsOfValues vs = vs.map Json.ofValue := by
    induction vs with
    | nil => rfl
    | cons v vs ih => rw [Json.itemsOfValues, ih, List.map_cons]
  rw [Json.ofValue, hitems]

theorem ofValue_mapping (es : Mapping) : Json.ofValue (.mapping es) =
    .object ((Fields.ofList (named es)).map fun f => (f.1, Json.ofValue f.2)) := by
  have hfields : Json.fieldsOfEntries es = (named es).map fun f => (f.1, Json.ofValue f.2) := by
    induction es with
    | nil => rfl
    | cons e es ih =>
      rw [Json.fieldsOfEntries, ih]
      rfl
  rw [Json.ofValue, hfields, Fields.ofList_map]

theorem itemsToValues_map {vs : List Value} {f : Value → Json} {g : Value → Value}
    (h : ∀ v ∈ vs, (f v).toValue = .ok (g v)) :
    Json.itemsToValues (vs.map f) = .ok (vs.map g) := by
  rw [Json.itemsToValues_eq_ok_iff, List.forall₂_map_left_iff, List.forall₂_map_right_iff,
    List.forall₂_same]
  exact h

theorem fieldsToEntries_map {fs : List (String × Value)} {f : Value → Json} {g : Value → Value}
    (h : ∀ e ∈ fs, (f e.2).toValue = .ok (g e.2)) :
    Json.fieldsToEntries (fs.map fun e => (e.1, f e.2)) =
      .ok (keyed (fs.map fun e => (e.1, g e.2))) := by
  rw [Json.fieldsToEntries_eq_ok_iff, keyed, List.forall₂_map_left_iff, List.forall₂_map_right_iff,
    List.forall₂_map_right_iff, List.forall₂_same]
  exact fun e he => ⟨g e.2, h e he, rfl⟩

/-- Fields made of entries hold values of the entries. -/
theorem exists_of_mem_ofList_named {es : Mapping} {f : String × Value}
    (h : f ∈ Fields.ofList (named es)) : ∃ e ∈ es, e.1.toText = f.1 ∧ e.2 = f.2 := by
  obtain ⟨e, he, rfl⟩ := List.mem_map.1 (Fields.mem_ofList h)
  exact ⟨e, he, rfl, rfl⟩

/-- What is written is a document. -/
theorem wellFormed_ofValue (v : Value) : (Json.ofValue v).WellFormed := by
  induction v using Value.induction with
  | number x =>
    rw [Json.ofValue]
    split
    · next hx => exact .real hx
    · exact .string _
  | boolean b => exact .boolean b
  | text s => exact .string s
  | sequence vs ih =>
    rw [ofValue_sequence]
    exact .array (List.forall_mem_map.2 ih)
  | mapping es ih =>
    rw [ofValue_mapping]
    refine .object ((Fields.ordered_ofList (named es)).map Json.ofValue) ?_
    rw [List.forall_mem_map]
    intro f hf
    obtain ⟨e, he, -, heq⟩ := exists_of_mem_ofList_named hf
    exact heq ▸ (ih e he).2

theorem toValue_ofValue (v : Value) : (Json.ofValue v).toValue = .ok v.canon := by
  induction v using Value.induction with
  | number x =>
    rw [Json.ofValue, canon]
    split <;> rfl
  | boolean b => rfl
  | text s => rfl
  | sequence vs ih =>
    rw [ofValue_sequence, canon_sequence, Json.toValue, itemsToValues_map ih]
    rfl
  | mapping es ih =>
    have hfields : ∀ f ∈ Fields.ofList (named es), (Json.ofValue f.2).toValue = .ok f.2.canon := by
      intro f hf
      obtain ⟨e, he, -, heq⟩ := exists_of_mem_ofList_named hf
      exact heq ▸ (ih e he).2
    rw [ofValue_mapping, canon_mapping, Json.toValue, fieldsToEntries_map hfields]
    have hordered := (Fields.ordered_ofList (named es)).map canon
    exact congrArg (fun m => Except.ok (mapping m)) (Mapping.ofList_eq_self (distinct_keyed hordered))

/-! ## Canonical values -/

/-- Numbers are finite, and the keys of a mapping are texts, in the order of their bytes. -/
inductive Canonical : Value → Prop where
  | number {x : Float} (h : Number.isFinite x = true) : Canonical (.number x)
  | boolean (b : Bool) : Canonical (.boolean b)
  | text (s : String) : Canonical (.text s)
  | sequence {vs : List Value} (h : ∀ v ∈ vs, Canonical v) : Canonical (.sequence vs)
  | mapping {fields : List (String × Value)} (ho : Fields.Ordered fields)
    (h : ∀ f ∈ fields, Canonical f.2) : Canonical (.mapping (keyed fields))

theorem canonical_canon (v : Value) : v.canon.Canonical := by
  induction v using Value.induction with
  | number x =>
    rw [canon]
    split
    · next hx => exact .number hx
    · exact .text _
  | boolean b => exact .boolean b
  | text s => exact .text s
  | sequence vs ih =>
    rw [canon_sequence]
    exact .sequence (List.forall_mem_map.2 ih)
  | mapping es ih =>
    rw [canon_mapping]
    refine .mapping ((Fields.ordered_ofList (named es)).map canon) ?_
    rw [List.forall_mem_map]
    intro f hf
    obtain ⟨e, he, -, heq⟩ := exists_of_mem_ofList_named hf
    exact heq ▸ (ih e he).2

theorem named_keyed (fields : List (String × Value)) : named (keyed fields) = fields := by
  rw [named, keyed, List.map_map]
  exact List.map_id'' (fun f => by simp) fields

theorem Canonical.canon_eq {v : Value} (h : v.Canonical) : v.canon = v := by
  induction h with
  | number hx => rw [canon, if_pos hx]
  | boolean b => rfl
  | text s => rfl
  | sequence _ ih => rw [canon_sequence, List.map_congr_left ih, List.map_id']
  | @mapping fields ho _ ih =>
    have hfields : fields.map (fun f => (f.1, canon f.2)) = fields := by
      conv_rhs => rw [← List.map_id fields]
      exact List.map_congr_left fun f hf => by rw [ih f hf]; rfl
    rw [canon_mapping, named_keyed, Fields.ofList_eq_self ho, hfields]

/-- Written and read once more, a canonical value is what it was. -/
theorem Canonical.toValue_ofValue {v : Value} (h : v.Canonical) :
    (Json.ofValue v).toValue = .ok v := by
  rw [Value.toValue_ofValue, h.canon_eq]

end Value

namespace Json

/-! ## Values of documents -/

/-- The entries that come of fields are keyed by the names of the fields. -/
theorem exists_keyed {fs : List (String × Json)} {es : Mapping} (h : fieldsToEntries fs = .ok es) :
    ∃ gs, es = Value.keyed gs ∧
      List.Forall₂ (fun f g => f.1 = g.1 ∧ f.2.toValue = .ok g.2) fs gs := by
  rw [fieldsToEntries_eq_ok_iff] at h
  induction h with
  | nil => exact ⟨[], rfl, .nil⟩
  | @cons f e fs es hfe _ ih =>
    obtain ⟨v, hv, rfl⟩ := hfe
    obtain ⟨gs, rfl, hgs⟩ := ih
    exact ⟨(f.1, v) :: gs, rfl, .cons ⟨rfl, hv⟩ hgs⟩

theorem exists_of_toValue_array {items : List Json} {v : Value}
    (h : (Json.array items).toValue = .ok v) :
    ∃ vs, v = .sequence vs ∧ List.Forall₂ (fun j w => j.toValue = .ok w) items vs := by
  obtain ⟨vs, hvs, h⟩ := bind_eq_ok.1 h
  cases h
  exact ⟨vs, rfl, itemsToValues_eq_ok_iff.1 hvs⟩

/-- The entries of an object's value are its fields, in the same order. -/
theorem exists_of_toValue_object {fields : List (String × Json)} (ho : Fields.Ordered fields)
    {v : Value} (h : (Json.object fields).toValue = .ok v) :
    ∃ gs, v = .mapping (Value.keyed gs) ∧ Fields.Ordered gs ∧
      List.Forall₂ (fun f g => f.1 = g.1 ∧ f.2.toValue = .ok g.2) fields gs := by
  obtain ⟨es, hes, h⟩ := bind_eq_ok.1 h
  cases h
  obtain ⟨gs, rfl, hgs⟩ := exists_keyed hes
  have hnames : List.Forall₂ (· = ·) (fields.map (·.1)) (gs.map (·.1)) := by
    rw [List.forall₂_map_left_iff, List.forall₂_map_right_iff]
    exact hgs.imp fun _ _ h => h.1
  rw [List.forall₂_eq_eq_eq] at hnames
  have hordered : Fields.Ordered gs := ho.of_names hnames.symm
  exact ⟨gs, by rw [Mapping.ofList_eq_self (Value.distinct_keyed hordered)], hordered, hgs⟩

theorem isFinite_of_isWord {n : Int} (h : isWord n = true) :
    Number.isFinite (Number.ofInt n) = true := by
  rw [isWord, Bool.and_eq_true, decide_eq_true_eq, decide_eq_true_eq] at h
  exact Number.isFinite_ofInt (by omega)

theorem canonical_toValue {j : Json} (hj : j.WellFormed) {v : Value} (h : j.toValue = .ok v) :
    v.Canonical := by
  induction hj generalizing v with
  | null => cases h
  | boolean b =>
    cases h
    exact .boolean b
  | integer hn =>
    cases h
    exact .number (isFinite_of_isWord hn)
  | real hx =>
    cases h
    exact .number hx
  | string s =>
    cases h
    exact .text s
  | array _ ih =>
    obtain ⟨vs, rfl, hvs⟩ := exists_of_toValue_array h
    refine .sequence ?_
    intro w hw
    obtain ⟨i, hi, hw⟩ := exists_left_of_mem hvs hw
    exact ih i hi hw
  | object ho _ ih =>
    obtain ⟨gs, rfl, hordered, hgs⟩ := exists_of_toValue_object ho h
    refine .mapping hordered ?_
    intro g hg
    obtain ⟨f, hf, -, hg⟩ := exists_left_of_mem hgs hg
    exact ih f hf hg

end Json

end Formula
