import Formula.Proofs.Json.Norm
import Formula.Proofs.Operator.Concatenation
/-!
# Paths into documents

A path leads from a document to a part of it, through names of fields and positions in arrays. Element
access follows it in the value of the document, one key after the other: a name is a key of a mapping,
and a position is the index that is this number, as long as doubles count that far.

Results:
* `access_part`: one key.
* `accessAlong_of_partAt?`: all keys of a path.
* `values_follow_documents`: documents with a value, what the value is, and what is found in it.
-/
namespace Formula.Json

/-! ## Parts of documents -/

/-- A step from a document to a part of it. -/
inductive Key where
  | name (s : String)
  | position (n : Nat)

def part? : Json → Key → Option Json
  | .object fields, .name s => Assoc.get? fields s
  | .array items, .position n => items[n]?
  | _, _ => none

def partAt? (j : Json) (path : List Key) : Option Json := path.foldlM part? j

/-- The index that element access takes for a key. -/
def Key.index : Key → Value
  | .name s => .text s
  | .position n => .number (Number.ofInt n)

/-- The position is one that doubles count up to without a gap. -/
def Key.Exact : Key → Prop
  | .name _ => True
  | .position n => n < 2 ^ 53

instance (k : Key) : Decidable k.Exact :=
  match k with
  | .name _ => inferInstanceAs (Decidable True)
  | .position n => inferInstanceAs (Decidable (n < 2 ^ 53))

section Access

variable {σ : Type} [Scope σ] (scope : σ) {symbol : String} {i j : Json} {v : Value} {k : Key}
  {path : List Key}

/-- What `symbol` finds along a path, key by key. -/
def accessAlong (symbol : String) (v : Value) : List Key → Outcome
  | [] => .ok (some v)
  | k :: path =>
    match apply symbol [v, k.index] scope with
    | .ok (some w) => accessAlong symbol w path
    | outcome => outcome

theorem WellFormed.part? (hj : j.WellFormed) (h : j.part? k = some i) : i.WellFormed := by
  cases hj with
  | array hitems =>
    cases k with
    | name => cases h
    | position n => exact hitems i (List.mem_of_getElem? h)
  | object _ hfields =>
    cases k with
    | name s => exact hfields (s, i) (Assoc.mem_of_get?_eq_some h)
    | position => cases h
  | null | boolean | integer | real | string => cases h

/-! ## One key -/

/-- The value of an object has the values of the fields under their names. -/
theorem access_name {fields : List (String × Json)} (ho : Fields.Ordered fields)
    (hv : (Json.object fields).toValue = .ok v) (hsymbol : symbol = "@" ∨ symbol = "AT")
    (name : String) : ∃ found, apply symbol [v, .text name] scope = .ok found ∧
      Option.Rel (fun i w => i.toValue = .ok w) (Assoc.get? fields name) found := by
  obtain ⟨gs, rfl, -, hgs⟩ := exists_of_toValue_object ho hv
  refine ⟨Assoc.get? gs name, ?_, Fields.rel_get? hgs name⟩
  rw [apply_elementAccess scope _ _ hsymbol, ← Value.get?_keyed]
  rfl

/-- The value of an array has the values of the items at their positions. -/
theorem access_position {items : List Json} (hv : (Json.array items).toValue = .ok v)
    (hsymbol : symbol = "@" ∨ symbol = "AT") {n : Nat} (hn : n < 2 ^ 53) (h : n < items.length) :
    ∃ w, items[n].toValue = .ok w ∧
      apply symbol [v, .number (Number.ofInt n)] scope = .ok (some w) := by
  obtain ⟨vs, rfl, hvs⟩ := exists_of_toValue_array hv
  have hlength : n < vs.length := hvs.length_eq ▸ h
  refine ⟨vs[n], (List.forall₂_iff_get.1 hvs).2 n h hlength, ?_⟩
  have hindex : (Value.number (Number.ofInt n)).Denotes n := Value.denotes_ofInt (by omega)
  rw [apply_elementAccess scope _ _ hsymbol, Value.access_of_denotes (.inl rfl) hindex (by omega),
    component?, Value.components, wrapIndex_of_lt (by omega) (by omega)]
  exact congrArg Except.ok (List.getElem?_eq_getElem hlength)

/-- Beyond the last item there is none. -/
theorem access_beyond {items : List Json} (hv : (Json.array items).toValue = .ok v)
    (hsymbol : symbol = "@" ∨ symbol = "AT") {x : Float} (h : items.length ≤ Number.toIndex x) :
    apply symbol [v, .number x] scope = .error (.outOfBounds (Number.toIndex x) items.length) := by
  obtain ⟨vs, rfl, hvs⟩ := exists_of_toValue_array hv
  have hcontainer : (Value.sequence vs).IsPositional := .inl rfl
  have hkind : (Value.number x).kind ≠ .sequence := nofun
  rw [hvs.length_eq] at h ⊢
  rw [apply_elementAccess scope _ _ hsymbol,
    Value.access_eq_element hcontainer.isContainer hkind, Value.element_eq hcontainer]
  exact component?_of_length_le h

theorem access_part (hj : j.WellFormed) (hv : j.toValue = .ok v)
    (hsymbol : symbol = "@" ∨ symbol = "AT") (hk : k.Exact) (hi : j.part? k = some i) :
    ∃ w, i.toValue = .ok w ∧ apply symbol [v, k.index] scope = .ok (some w) := by
  cases hj with
  | @array items _ =>
    cases k with
    | name => cases hi
    | position n =>
      obtain ⟨hn, rfl⟩ := List.getElem?_eq_some_iff.1 hi
      exact access_position scope hv hsymbol hk hn
  | @object fields ho _ =>
    cases k with
    | name s =>
      obtain ⟨found, hfound, hrel⟩ := access_name scope ho hv hsymbol s
      have hs : Assoc.get? fields s = some i := hi
      rw [hs] at hrel
      cases hrel with
      | some hw => exact ⟨_, hw, hfound⟩
    | position => cases hi
  | null | boolean | integer | real | string => cases hi

/-! ## All keys -/

theorem accessAlong_of_partAt? (hj : j.WellFormed) (hv : j.toValue = .ok v)
    (hsymbol : symbol = "@" ∨ symbol = "AT") (hpath : ∀ k ∈ path, k.Exact)
    (hi : j.partAt? path = some i) :
    i.WellFormed ∧ ∃ w, i.toValue = .ok w ∧ accessAlong scope symbol v path = .ok (some w) := by
  induction path generalizing j v with
  | nil =>
    cases hi
    exact ⟨hj, v, hv, rfl⟩
  | cons k path ih =>
    obtain ⟨hk, hpath⟩ := List.forall_mem_cons.1 hpath
    obtain ⟨part, hpart, hi⟩ := Option.bind_eq_some_iff.1 hi
    obtain ⟨u, hu, haccess⟩ := access_part scope hj hv hsymbol hk hpart
    rw [accessAlong, haccess]
    exact ih (hj.part? hpart) hu hpath hi

end Access

/-- **Values follow their documents.** A document has no value when null occurs in it, and for no other
reason. Its value is written as the document with every number as a double. Along any path into the
document, element access in the value leads to the value of the part; a name that an object on the way
lacks is absent there, and an index that is not below the length of an array is out of bounds. -/
theorem values_follow_documents {σ : Type} [Scope σ] (scope : σ) {j : Json} (hj : j.WellFormed) :
    (∀ fault, j.toValue = .error fault ↔ fault = .nullValue ∧ Within .null j) ∧
    ∀ v, j.toValue = .ok v → ofValue v = j.norm ∧
      ∀ symbol, symbol = "@" ∨ symbol = "AT" →
        ∀ (path : List Key) (i : Json), (∀ k ∈ path, k.Exact) → j.partAt? path = some i →
          ∃ w, i.toValue = .ok w ∧ accessAlong scope symbol v path = .ok (some w) ∧
            (∀ fields name, i = .object fields → Assoc.get? fields name = none →
              apply symbol [w, .text name] scope = .ok none) ∧
            ∀ items, i = .array items →
              (∀ n : Nat, n < 2 ^ 53 → items.length ≤ n →
                apply symbol [w, .number (Number.ofInt n)] scope =
                  .error (.outOfBounds n items.length)) ∧
              ∀ x, items.length ≤ Number.toIndex x → apply symbol [w, .number x] scope =
                .error (.outOfBounds (Number.toIndex x) items.length) := by
  refine ⟨fun fault => toValue_eq_error_iff, fun v hv => ⟨ofValue_toValue hj hv, ?_⟩⟩
  intro symbol hsymbol path i hpath hi
  obtain ⟨hwell, w, hw, haccess⟩ := accessAlong_of_partAt? scope hj hv hsymbol hpath hi
  refine ⟨w, hw, haccess, ?_, ?_⟩
  · rintro fields name rfl hname
    cases hwell with
    | object ho _ =>
      obtain ⟨found, hfound, hrel⟩ := access_name scope ho hw hsymbol name
      rw [hname] at hrel
      cases hrel
      exact hfound
  · rintro items rfl
    refine ⟨fun n hn hlength => ?_, fun x hx => access_beyond scope hw hsymbol hx⟩
    have hindex : Number.toIndex (Number.ofInt n) = n := by
      rw [Number.toIndex_of_value? (Number.value?_ofInt (by omega)),
        Number.clampIndex_eq_self (by omega)]
    have hbeyond := access_beyond scope hw hsymbol (x := Number.ofInt n) (by omega)
    rwa [hindex] at hbeyond

/-- Three levels, where a name is the text of another number, the path ends in an empty array, and an
array has null deep inside. -/
theorem values_follow_documents_nested :
    let j : Json := .object [("1", .array [.integer 7, .object [("", .array [])]]),
      ("1.0", .boolean true)]
    let v : Value := .mapping [(.text "1", .sequence [.number 7,
      .mapping [(.text "", .sequence [])]]), (.text "1.0", .boolean true)]
    let path : List Key := [.name "1", .position 1]
    let withNull : Json := .array [j, .object [("a", .array [.null])]]
    j.WellFormed ∧ j.toValue = .ok v ∧
      ofValue v = .object [("1", .array [.real 7, .object [("", .array [])]]),
        ("1.0", .boolean true)] ∧
      accessAlong Variables.empty "@" v (path ++ [.name ""]) = .ok (some (.sequence [])) ∧
      (∃ w, accessAlong Variables.empty "AT" v path = .ok (some w) ∧
        apply "AT" [w, .text "1"] Variables.empty = .ok none) ∧
      (∃ w, accessAlong Variables.empty "@" v [.name "1"] = .ok (some w) ∧
        apply "@" [w, .number (Number.ofInt 2)] Variables.empty = .error (.outOfBounds 2 2)) ∧
      withNull.toValue = .error .nullValue := by
  intro j v path withNull
  have hempty : (Json.array []).WellFormed := .array nofun
  have hitems : (Json.array [.integer 7, .object [("", .array [])]]).WellFormed :=
    .array (by simpa using ⟨.integer (by decide), .object_of_pairwise (by decide)
      (by simpa using hempty)⟩)
  have hj : j.WellFormed := .object_of_pairwise (by decide) (by simpa using ⟨hitems, .boolean true⟩)
  have hnull : withNull.WellFormed := .array (by
    simpa using ⟨hj, .object_of_pairwise (by decide)
      (by simpa using .array (by simpa using .null))⟩)
  have hv : j.toValue = .ok v := rfl
  obtain ⟨-, hvalue⟩ := values_follow_documents Variables.empty hj
  obtain ⟨hwritten, haccess⟩ := hvalue v hv
  obtain ⟨w, hw, hempty, -, -⟩ :=
    haccess "@" (.inl rfl) (path ++ [.name ""]) (.array []) (by decide) rfl
  cases hw
  obtain ⟨u, -, hu, habsent, -⟩ := haccess "AT" (.inr rfl) path _ (by decide) rfl
  obtain ⟨t, -, ht, -, hbeyond⟩ := haccess "@" (.inl rfl) [.name "1"] _ (by decide) rfl
  obtain ⟨hfails, -⟩ := values_follow_documents Variables.empty hnull
  refine ⟨hj, hv, hwritten, hempty, ⟨u, hu, habsent _ "1" rfl rfl⟩,
    ⟨t, ht, (hbeyond _ rfl).1 2 (by decide) (by decide)⟩, (hfails .nullValue).2 ⟨rfl, ?_⟩⟩
  exact .item (List.mem_cons_of_mem _ List.mem_cons_self)
    (.field List.mem_cons_self (.item List.mem_cons_self (.self .null)))

end Formula.Json
