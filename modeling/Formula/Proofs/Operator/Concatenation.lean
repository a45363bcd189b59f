import Formula.Proofs.Operator.Access
/-!
# Components of sums

The components of a sum are those of its operands, one list after the other. An index into it is one
into an operand: from the front it is shifted by the length of the left one, from the back by that of
the right one, and beyond the front it goes around the whole sum.

Results:
* `component?_append_left`, `component?_append_right`, `component?_raise`: indices into lists.
* `Value.access_of_denotes`: numbers for integers as indices.
* `Value.access_counting`, `addUp_text`: all components, taken apart and put together.
* `access_distributes`: the operators of the language.
-/
namespace Formula

/-! ## Indices into lists -/

section Components

variable {α : Type} {xs ys : List α} {i : Int}

/-- The item at the position that an index means. -/
def component? (xs : List α) (i : Int) : Except Fault (Option α) :=
  (wrapIndex i xs.length).map (xs[·]?)

theorem component?_append_left (h : 0 ≤ i) (hlt : i < xs.length) :
    component? (xs ++ ys) i = component? xs i := by
  have hlength : i < (xs ++ ys).length := by rw [List.length_append]; omega
  rw [component?, component?, wrapIndex_of_lt h hlength, wrapIndex_of_lt h hlt]
  exact congrArg Except.ok (List.getElem?_append_left (by omega))

theorem component?_append_right (h : xs.length ≤ i) (hlt : i < xs.length + ys.length) :
    component? (xs ++ ys) i = component? ys (i - xs.length) := by
  have hlength : i < (xs ++ ys).length := by rw [List.length_append]; omega
  have hposition : (i - xs.length).toNat = i.toNat - xs.length := by omega
  rw [component?, component?, wrapIndex_of_lt (by omega) hlength,
    wrapIndex_of_lt (by omega) (by omega), hposition]
  exact congrArg Except.ok (List.getElem?_append_right (by omega))

/-- A negative index means the same as the next one around. -/
theorem component?_raise (hlength : 0 < xs.length) (h : i < 0) :
    component? xs i = component? xs (i + xs.length) := by
  rw [component?, component?, wrapIndex_eq_emod hlength (by omega),
    wrapIndex_eq_emod hlength (by omega), Int.add_emod_right]

/-- From the back, the right list comes first. -/
theorem component?_append_back (h : -ys.length ≤ i) (hneg : i < 0) :
    component? (xs ++ ys) i = component? ys i := by
  calc component? (xs ++ ys) i
    _ = component? (xs ++ ys) (i + (xs.length + ys.length)) := by
      rw [component?_raise (by rw [List.length_append]; omega) hneg, List.length_append,
        Nat.cast_add]
    _ = component? ys (i + ys.length) := by
      rw [component?_append_right (by omega) (by omega)]
      congr 1
      ring
    _ = component? ys i := (component?_raise (by omega) hneg).symm

theorem component?_append_back_left (h : -(xs.length + ys.length) ≤ i) (hlt : i < -ys.length) :
    component? (xs ++ ys) i = component? xs (i + ys.length) := by
  calc component? (xs ++ ys) i
    _ = component? (xs ++ ys) (i + (xs.length + ys.length)) := by
      rw [component?_raise (by rw [List.length_append]; omega) (by omega), List.length_append,
        Nat.cast_add]
    _ = component? xs (i + ys.length + xs.length) := by
      rw [component?_append_left (by omega) (by omega)]
      congr 1
      ring
    _ = component? xs (i + ys.length) := (component?_raise (by omega) (by omega)).symm

theorem component?_of_length_le (h : xs.length ≤ i) :
    component? xs i = .error (.outOfBounds i xs.length) :=
  map_eq_error.2 (Value.wrapIndex_eq_error_iff.2 ⟨.inr h, rfl⟩)

end Components

/-! ## Integers as indices -/

namespace Value

def Denotes (v : Value) (i : Int) : Prop :=
  ∃ x, v = .number x ∧ Number.value? x = some (i : ℚ)

variable {operator : String} {c x : Value} {i : Int}

theorem denotes_ofInt (h : i.natAbs < 2 ^ 53) : (number (Number.ofInt i)).Denotes i :=
  ⟨_, rfl, Number.value?_ofInt h⟩

theorem Denotes.kind_eq (h : x.Denotes i) : x.kind = .number := by
  obtain ⟨y, rfl, -⟩ := h
  rfl

theorem element_of_denotes (hc : c.IsPositional) (hx : x.Denotes i) (hi : i.natAbs < 2 ^ 63) :
    c.element operator x = component? c.components i := by
  obtain ⟨y, rfl, hy⟩ := hx
  rw [element_eq hc, position, Number.toIndex_of_value? hy, Number.clampIndex_eq_self hi]
  rfl

theorem access_of_denotes (hc : c.IsPositional) (hx : x.Denotes i) (hi : i.natAbs < 2 ^ 63) :
    c.access operator x = component? c.components i := by
  have hkind : x.kind ≠ .sequence := by
    rw [hx.kind_eq]
    nofun
  rw [access_eq_element hc.isContainer hkind, element_of_denotes hc hx hi]

/-- Numbers for the integers from zero up to below `k`, in order. -/
def Counting (indices : List Value) (k : Nat) : Prop :=
  List.Forall₂ (fun x (i : Nat) => Denotes x i) indices (List.range k)

theorem counting_ofInt {k : Nat} (h : k ≤ 2 ^ 53) :
    Counting ((List.range k).map fun i : Nat => number (Number.ofInt i)) k := by
  unfold Counting
  rw [List.forall₂_map_left_iff, List.forall₂_same]
  intro i hi
  rw [List.mem_range] at hi
  exact denotes_ofInt (by omega)

theorem Counting.denotes {indices : List Value} {k p : Nat} (h : Counting indices k) (hp : p < k) :
    ∃ hp : p < indices.length, indices[p].Denotes p := by
  obtain ⟨hlength, hget⟩ := List.forall₂_iff_get.1 h
  rw [List.length_range] at hlength
  have hindex := hget p (by omega) (by rwa [List.length_range])
  rw [List.get_eq_getElem, List.get_eq_getElem, List.getElem_range] at hindex
  exact ⟨_, hindex⟩

/-- There are no numbers to count on with. -/
theorem Counting.le {indices : List Value} {k : Nat} (h : Counting indices k) : k ≤ 2 ^ 53 + 1 := by
  by_contra hlt
  obtain ⟨_, x, -, hx⟩ := h.denotes (p := 2 ^ 53 + 1) (by omega)
  have := Number.natAbs_lt_of_odd hx (by decide)
  omega

/-- All indices in order find all components in order. -/
theorem access_counting {indices : List Value} (hc : c.IsPositional)
    (h : Counting indices c.components.length) :
    c.access operator (.sequence indices) = .ok (some (.sequence c.components)) := by
  have hlength := List.Forall₂.length_eq h
  rw [List.length_range] at hlength
  have hall : List.Forall₂ (fun x v => c.element operator x = .ok (some v)) indices
      c.components := by
    refine List.forall₂_iff_get.2 ⟨hlength, fun p hp hp' => ?_⟩
    obtain ⟨_, hx⟩ := h.denotes hp'
    have hle := h.le
    have hwrap : wrapIndex p c.components.length = .ok p :=
      wrapIndex_of_lt (by omega) (by omega)
    rw [List.get_eq_getElem, List.get_eq_getElem, element_of_denotes hc hx (by omega), component?,
      hwrap]
    exact congrArg Except.ok (List.getElem?_eq_getElem hp')
  rw [access_sequence hc.isContainer, elements_eq_ok_iff.2 hall]
  rfl

end Value

/-! ## Sums -/

section Sums

variable {σ : Type} [Scope σ] (scope : σ) {a b : Value}

theorem apply_addition_text (s : String) (v : Value) :
    apply "+" [.text s, v] scope = .ok (some (.text (s ++ v.toText))) := by
  have hbranch : Combination.of (.text s) v = .texts (Value.text s).toText v.toText := rfl
  rw [apply_addition, Arithmetic.apply, hbranch, Value.toText_text]
  rfl

/-- The components of a sum are those of its operands. -/
theorem exists_sum (ha : a.IsPositional) (hkind : b.kind = a.kind) :
    ∃ ab : Value, apply "+" [a, b] scope = .ok (some ab) ∧ ab.IsPositional ∧
      ab.components = a.components ++ b.components := by
  cases a with
  | sequence xs =>
    cases b <;> cases hkind
    exact ⟨_, apply_addition_sequences scope _ _, .inl rfl, rfl⟩
  | text s =>
    cases b <;> cases hkind
    refine ⟨_, apply_addition_text scope _ _, .inr rfl, ?_⟩
    simp only [Value.toText_text, Value.components, String.toList_append, List.map_append]
  | number | boolean | mapping => simp [Value.IsPositional, Value.kind] at ha

/-- The sum of a value and all values of a list, added one after the other. -/
def addUp (v : Value) : List Value → Outcome
  | [] => .ok (some v)
  | w :: ws =>
    match apply "+" [v, w] scope with
    | .ok (some sum) => addUp sum ws
    | outcome => outcome

theorem addUp_texts (s : String) (ws : List Value) :
    addUp scope (.text s) ws = .ok (some (.text (s ++ String.join (ws.map Value.toText)))) := by
  induction ws generalizing s with
  | nil => simp [addUp]
  | cons w ws ih =>
    rw [addUp, apply_addition_text]
    dsimp only
    rw [ih, List.map_cons, String.join_cons, String.append_assoc]

/-- The characters of a text add up to the text. -/
theorem addUp_text (s t : String) :
    addUp scope (.text s) (Value.text t).components = .ok (some (.text (s ++ t))) := by
  have hletters : String.join ((Value.text t).components.map Value.toText) = t := by
    rw [← String.toList_inj, String.toList_join, Value.components]
    simp [List.flatMap_map]
  rw [addUp_texts, hletters]

end Sums

/-- Access to a sum by the index for `i`, through access to its operands of `m` and `n` components. -/
structure AccessesSum (access : Value → Value → Outcome) (a b sum : Value) (m n : Nat) (x : Value)
    (i : Int) : Prop where
  left : 0 ≤ i → i < m → access sum x = access a x
  right : ∀ y : Value, y.Denotes (i - m) → m ≤ i → i < m + n → access sum x = access b y
  back : -n ≤ i → i ≤ -1 → access sum x = access b x
  backLeft : ∀ y : Value, y.Denotes (i + n) → -(m + n) ≤ i → i < -n → access sum x = access a y
  around : ∀ y : Value, y.Denotes (i + (m + n)) → 0 < m + n → i < -(m + n) →
    access sum x = access sum y
  outside : m + n ≤ i → access sum x = .error (.outOfBounds i (m + n))

theorem accessesSum_of_components {operator : String} {a b sum x : Value} {i : Int}
    (ha : a.IsPositional) (hb : b.IsPositional) (hsum : sum.IsPositional)
    (hcomponents : sum.components = a.components ++ b.components)
    (hlength : a.components.length + b.components.length < 2 ^ 53) (hx : x.Denotes i)
    (hi : i.natAbs < 2 ^ 53) :
    AccessesSum (Value.access operator) a b sum a.components.length b.components.length x i := by
  have haccess {y : Value} {j : Int} (hy : y.Denotes j) (hj : j.natAbs < 2 ^ 63) :
      sum.access operator y = component? (a.components ++ b.components) j := by
    rw [Value.access_of_denotes hsum hy hj, hcomponents]
  have hx' := haccess hx (by omega)
  constructor
  case left =>
    intro h hlt
    rw [hx', component?_append_left h hlt, Value.access_of_denotes ha hx (by omega)]
  case right =>
    intro y hy h hlt
    rw [hx', component?_append_right h hlt, Value.access_of_denotes hb hy (by omega)]
  case back =>
    intro h hlt
    rw [hx', component?_append_back h (by omega), Value.access_of_denotes hb hx (by omega)]
  case backLeft =>
    intro y hy h hlt
    rw [hx', component?_append_back_left h hlt, Value.access_of_denotes ha hy (by omega)]
  case around =>
    intro y hy hpos hlt
    rw [hx', haccess hy (by omega), component?_raise (by rwa [List.length_append]) (by omega),
      List.length_append, Nat.cast_add]
  case outside =>
    intro h
    rw [hx', component?_of_length_le (by rw [List.length_append]; omega), List.length_append]

/-- **Access to a sum is access to its operands.** In a sum of two sequences or two texts of `m` and `n`
components, an index for an integer below `2 ^ 53`, which every such integer has, finds what the same or
a shifted index finds in one of the operands, or around the whole sum, and from `m + n` on nothing. All
indices in order give all items of a sequence, and the characters of a text one by one, which add up to
the text. -/
theorem access_distributes {σ : Type} [Scope σ] (scope : σ) :
    (∀ i : Int, i.natAbs < 2 ^ 53 → (Value.number (Number.ofInt i)).Denotes i) ∧
    (∀ symbol, symbol = "@" ∨ symbol = "AT" →
      (∀ a b : Value, a.IsPositional → b.kind = a.kind →
        a.components.length + b.components.length < 2 ^ 53 →
        ∃ sum, apply "+" [a, b] scope = .ok (some sum) ∧
          ∀ (x : Value) (i : Int), x.Denotes i → i.natAbs < 2 ^ 53 →
            AccessesSum (fun c x => apply symbol [c, x] scope) a b sum a.components.length
              b.components.length x i) ∧
      (∀ items indices : List Value, Value.Counting indices items.length →
        apply symbol [.sequence items, .sequence indices] scope = .ok (some (.sequence items))) ∧
      (∀ t : String, ∃ letters, letters = t.toList.map (fun c => Value.text (String.singleton c)) ∧
        (∀ indices : List Value, Value.Counting indices t.toList.length →
          apply symbol [.text t, .sequence indices] scope = .ok (some (.sequence letters))) ∧
        addUp scope (.text "") letters = .ok (some (.text t)))) := by
  refine ⟨fun i hi => Value.denotes_ofInt hi, fun symbol hsymbol => ?_⟩
  simp only [apply_elementAccess scope _ _ hsymbol]
  refine ⟨?_, ?_, ?_⟩
  · intro a b ha hkind hlength
    obtain ⟨sum, hsum, hpositional, hcomponents⟩ := exists_sum scope ha hkind
    have hb : b.IsPositional := by rwa [Value.IsPositional, hkind]
    refine ⟨sum, hsum, fun x i hx hi => ?_⟩
    exact accessesSum_of_components ha hb hpositional hcomponents hlength hx hi
  · intro items indices h
    exact Value.access_counting (.inl rfl) h
  · intro t
    refine ⟨_, rfl, fun indices h => ?_, ?_⟩
    · refine Value.access_counting (c := .text t) (.inr rfl) ?_
      rwa [Value.components, List.length_map]
    · exact (addUp_text scope "" t).trans (by rw [String.empty_append])

/-- Characters of two and three bytes on either side of the seam, and every range of indices. -/
theorem access_distributes_characters :
    let index (i : Int) : Value := .number (Number.ofInt i)
    let a : Value := .text "xé"
    let b : Value := .text "漢"
    let ab : Value := .text "xé漢"
    apply "+" [a, b] Variables.empty = .ok (some ab) ∧
      apply "@" [ab, index 1] Variables.empty = apply "@" [a, index 1] Variables.empty ∧
      apply "@" [ab, index 2] Variables.empty = apply "@" [b, index 0] Variables.empty ∧
      apply "@" [ab, index (-1)] Variables.empty = apply "@" [b, index (-1)] Variables.empty ∧
      apply "@" [ab, index (-2)] Variables.empty = apply "@" [a, index (-1)] Variables.empty ∧
      apply "@" [ab, index (-7)] Variables.empty = apply "@" [ab, index (-4)] Variables.empty ∧
      apply "@" [ab, index 3] Variables.empty = .error (.outOfBounds 3 3) ∧
      apply "@" [ab, .sequence ((List.range 3).map fun i : Nat => index i)] Variables.empty =
        .ok (some (.sequence [.text "x", .text "é", .text "漢"])) ∧
      addUp Variables.empty (.text "") [.text "x", .text "é", .text "漢"] = .ok (some ab) := by
  intro index a b ab
  obtain ⟨hdenotes, hall⟩ := access_distributes Variables.empty
  obtain ⟨hsums, -, htexts⟩ := hall "@" (.inl rfl)
  obtain ⟨sum, hsum, haccess⟩ := hsums a b (.inr rfl) rfl (by decide)
  have hab : apply "+" [a, b] Variables.empty = .ok (some ab) := rfl
  cases hab.symm.trans hsum
  have hindex (i : Int) (hi : i.natAbs < 2 ^ 53) := haccess (index i) i (hdenotes i hi) hi
  obtain ⟨letters, hletters, hcount, hadd⟩ := htexts "xé漢"
  have hcounting := hcount _ (Value.counting_ofInt (by decide))
  rw [hletters] at hcounting hadd
  refine ⟨hab, (hindex 1 (by decide)).left (by decide) (by decide),
    (hindex 2 (by decide)).right _ (hdenotes 0 (by decide)) (by decide) (by decide),
    (hindex (-1) (by decide)).back (by decide) (by decide),
    (hindex (-2) (by decide)).backLeft _ (hdenotes (-1) (by decide)) (by decide) (by decide),
    (hindex (-7) (by decide)).around _ (hdenotes (-4) (by decide)) (by decide) (by decide),
    (hindex 3 (by decide)).outside (by decide), hcounting, hadd⟩

end Formula
