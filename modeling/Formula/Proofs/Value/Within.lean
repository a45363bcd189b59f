import Formula.Number.Parts
import Formula.Proofs.Assoc
import Formula.Value.Equality
/-!
# What occurs in a value

`Within w v` says that `w` is `v` or occurs in it at any depth: as an item, as the value of an entry,
or in a key. Two properties of a whole value are stated through it: that all its mappings have
distinct keys, and that all its numbers are defined. Both are read off the parts of a value.

Results:
* `Value.induction`: a property of all values, from items and entries upward.
* `wellKeyed_sequence`, `wellKeyed_mapping`: well-keyed collections.
* `defined_sequence`, `defined_mapping`: collections without undefined numbers.
* `isDefined_iff`: that all numbers of a value are defined can be decided.
-/
namespace Formula.Value

/-! ## Induction -/

theorem sizeOf_key_lt {es : List (Value × Value)} {e : Value × Value} (h : e ∈ es) :
    sizeOf e.1 < sizeOf (mapping es) := by
  have := List.sizeOf_lt_of_mem h
  have : sizeOf e = 1 + sizeOf e.1 + sizeOf e.2 := rfl
  simp only [mapping.sizeOf_spec]
  omega

theorem sizeOf_entry_lt {es : List (Value × Value)} {e : Value × Value} (h : e ∈ es) :
    sizeOf e.2 < sizeOf (mapping es) := by
  have := List.sizeOf_lt_of_mem h
  have : sizeOf e = 1 + sizeOf e.1 + sizeOf e.2 := rfl
  simp only [mapping.sizeOf_spec]
  omega

theorem sizeOf_item_lt {items : List Value} {v : Value} (h : v ∈ items) :
    sizeOf v < sizeOf (sequence items) := by
  have := List.sizeOf_lt_of_mem h
  simp only [sequence.sizeOf_spec]
  omega

/-- Induction over a value, with the property of the items, keys and values of collections. -/
@[elab_as_elim]
theorem induction {p : Value → Prop} (number : ∀ x, p (.number x))
    (boolean : ∀ b, p (.boolean b)) (text : ∀ s, p (.text s))
    (sequence : ∀ items, (∀ v ∈ items, p v) → p (.sequence items))
    (mapping : ∀ es, (∀ e ∈ es, p e.1 ∧ p e.2) → p (.mapping es)) (v : Value) : p v :=
  match v with
  | .number x => number x
  | .boolean b => boolean b
  | .text s => text s
  | .sequence items => sequence items fun v _ => induction number boolean text sequence mapping v
  | .mapping es => mapping es fun e _ =>
    ⟨induction number boolean text sequence mapping e.1,
      induction number boolean text sequence mapping e.2⟩
termination_by sizeOf v
decreasing_by
  · exact sizeOf_item_lt ‹_›
  · exact sizeOf_key_lt ‹_›
  · exact sizeOf_entry_lt ‹_›

/-! ## Occurrence -/

/-- `Within w v`: the value `w` occurs in `v`, at any depth and also in keys. -/
inductive Within : Value → Value → Prop where
  | self (v : Value) : Within v v
  | item {w v : Value} {items : List Value} (hv : v ∈ items) (h : Within w v) :
    Within w (.sequence items)
  | key {w : Value} {es : List (Value × Value)} {e : Value × Value} (he : e ∈ es)
    (h : Within w e.1) : Within w (.mapping es)
  | entry {w : Value} {es : List (Value × Value)} {e : Value × Value} (he : e ∈ es)
    (h : Within w e.2) : Within w (.mapping es)

section Occurrence

variable {w : Value}

@[simp] theorem within_number {x : Float} : Within w (.number x) ↔ w = .number x :=
  ⟨fun h => by cases h; rfl, fun h => h ▸ .self _⟩

@[simp] theorem within_boolean {b : Bool} : Within w (.boolean b) ↔ w = .boolean b :=
  ⟨fun h => by cases h; rfl, fun h => h ▸ .self _⟩

@[simp] theorem within_text {s : String} : Within w (.text s) ↔ w = .text s :=
  ⟨fun h => by cases h; rfl, fun h => h ▸ .self _⟩

theorem within_sequence {items : List Value} :
    Within w (.sequence items) ↔ w = .sequence items ∨ ∃ v ∈ items, Within w v := by
  constructor
  · rintro (_ | ⟨hv, h⟩)
    · exact .inl rfl
    · exact .inr ⟨_, hv, h⟩
  · rintro (rfl | ⟨v, hv, h⟩)
    · exact .self _
    · exact .item hv h

theorem within_mapping {es : List (Value × Value)} :
    Within w (.mapping es) ↔ w = .mapping es ∨ ∃ e ∈ es, Within w e.1 ∨ Within w e.2 := by
  constructor
  · rintro (_ | _ | ⟨he, h⟩ | ⟨he, h⟩)
    · exact .inl rfl
    · exact .inr ⟨_, he, .inl h⟩
    · exact .inr ⟨_, he, .inr h⟩
  · rintro (rfl | ⟨e, he, h | h⟩)
    · exact .self _
    · exact .key he h
    · exact .entry he h

theorem Within.trans {v u : Value} (h : Within w v) (hv : Within v u) : Within w u := by
  induction hv with
  | self => exact h
  | item hv _ ih => exact .item hv ih
  | key he _ ih => exact .key he ih
  | entry he _ ih => exact .entry he ih

end Occurrence

/-! ## Distinct keys -/

/-- All mappings that occur in the value have distinct keys. -/
def WellKeyed (v : Value) : Prop := ∀ es, Within (.mapping es) v → Assoc.Distinct es

theorem WellKeyed.within {w v : Value} (hv : v.WellKeyed) (h : Within w v) : w.WellKeyed :=
  fun es hes => hv es (hes.trans h)

@[simp] theorem wellKeyed_number (x : Float) : (number x).WellKeyed := by simp [WellKeyed]

@[simp] theorem wellKeyed_boolean (b : Bool) : (boolean b).WellKeyed := by simp [WellKeyed]

@[simp] theorem wellKeyed_text (s : String) : (text s).WellKeyed := by simp [WellKeyed]

@[simp] theorem wellKeyed_sequence (items : List Value) :
    (sequence items).WellKeyed ↔ ∀ v ∈ items, v.WellKeyed := by
  simp only [WellKeyed, within_sequence, reduceCtorEq, false_or]
  exact ⟨fun h v hv es hes => h es ⟨v, hv, hes⟩, fun h es ⟨v, hv, hes⟩ => h v hv es hes⟩

@[simp] theorem wellKeyed_mapping (es : List (Value × Value)) :
    (mapping es).WellKeyed ↔ Assoc.Distinct es ∧ ∀ e ∈ es, e.1.WellKeyed ∧ e.2.WellKeyed := by
  simp only [WellKeyed, within_mapping, mapping.injEq]
  constructor
  · intro h
    exact ⟨h es (.inl rfl), fun e he => ⟨fun fs hfs => h fs (.inr ⟨e, he, .inl hfs⟩),
      fun fs hfs => h fs (.inr ⟨e, he, .inr hfs⟩)⟩⟩
  · rintro ⟨hd, h⟩ fs (rfl | ⟨e, he, hfs | hfs⟩)
    · exact hd
    · exact (h e he).1 fs hfs
    · exact (h e he).2 fs hfs

/-! ## Defined numbers -/

/-- All numbers that occur in the value are defined. -/
def Defined (v : Value) : Prop := ∀ x, Within (.number x) v → Number.isUndefined x = false

@[simp] theorem defined_number (x : Float) :
    (number x).Defined ↔ Number.isUndefined x = false := by
  simp [Defined]

@[simp] theorem defined_boolean (b : Bool) : (boolean b).Defined := by simp [Defined]

@[simp] theorem defined_text (s : String) : (text s).Defined := by simp [Defined]

@[simp] theorem defined_sequence (items : List Value) :
    (sequence items).Defined ↔ ∀ v ∈ items, v.Defined := by
  simp only [Defined, within_sequence, reduceCtorEq, false_or]
  exact ⟨fun h v hv x hx => h x ⟨v, hv, hx⟩, fun h x ⟨v, hv, hx⟩ => h v hv x hx⟩

@[simp] theorem defined_mapping (es : List (Value × Value)) :
    (mapping es).Defined ↔ ∀ e ∈ es, e.1.Defined ∧ e.2.Defined := by
  simp only [Defined, within_mapping, reduceCtorEq, false_or]
  constructor
  · intro h e he
    exact ⟨fun x hx => h x ⟨e, he, .inl hx⟩, fun x hx => h x ⟨e, he, .inr hx⟩⟩
  · rintro h x ⟨e, he, hx | hx⟩
    · exact (h e he).1 x hx
    · exact (h e he).2 x hx

mutual

/-- Decides that all numbers in a value are defined. -/
def isDefined : Value → Bool
  | .number x => !Number.isUndefined x
  | .boolean _ => true
  | .text _ => true
  | .sequence items => areDefined items
  | .mapping es => entriesDefined es

def areDefined : List Value → Bool
  | [] => true
  | v :: vs => isDefined v && areDefined vs

def entriesDefined : List (Value × Value) → Bool
  | [] => true
  | (k, v) :: es => isDefined k && isDefined v && entriesDefined es

end

theorem areDefined_eq_all (vs : List Value) : areDefined vs = vs.all isDefined := by
  induction vs with
  | nil => rfl
  | cons v vs ih => rw [areDefined, ih, List.all_cons]

theorem entriesDefined_eq_all (es : List (Value × Value)) :
    entriesDefined es = es.all fun e => isDefined e.1 && isDefined e.2 := by
  induction es with
  | nil => rfl
  | cons e es ih => rw [entriesDefined, ih, List.all_cons]

theorem isDefined_iff (v : Value) : v.isDefined = true ↔ v.Defined := by
  induction v using Value.induction with
  | number x => simp [isDefined]
  | boolean | text => simp [isDefined]
  | sequence items ih =>
    rw [isDefined, areDefined_eq_all, List.all_eq_true, defined_sequence]
    exact forall₂_congr ih
  | mapping es ih =>
    simp only [isDefined, entriesDefined_eq_all, List.all_eq_true, Bool.and_eq_true, defined_mapping]
    exact forall₂_congr fun e he => and_congr (ih e he).1 (ih e he).2

instance (v : Value) : Decidable v.Defined := decidable_of_iff (v.isDefined = true) (isDefined_iff v)

end Formula.Value
