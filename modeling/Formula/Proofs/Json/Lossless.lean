import Formula.Proofs.Json.Canonical
/-!
# Values that JSON keeps

A value equals what is left of it after writing and reading when its numbers are finite and its keys
are texts. Keys are written whole, as their texts, so numbers in keys do not count.

Results:
* `canon_beq_iff`: the values that equal their canonical forms.
* `json_canonicalises`: writing and reading as canonicalisation.
-/
namespace Formula.Value

variable {v w : Value}

/-- `Reached w v`: the value `w` is `v`, or is reached from it through items and the values of
entries. -/
inductive Reached : Value → Value → Prop where
  | self (v : Value) : Reached v v
  | item {w v : Value} {items : List Value} (hv : v ∈ items) (h : Reached w v) :
    Reached w (.sequence items)
  | entry {w : Value} {es : Mapping} {e : Value × Value} (he : e ∈ es) (h : Reached w e.2) :
    Reached w (.mapping es)

/-- Every number that is reached is finite, and every key of a mapping that is reached is a text. -/
structure Lossless (v : Value) : Prop where
  numbers : ∀ x, Reached (.number x) v → Number.isFinite x = true
  keys : ∀ es, Reached (.mapping es) v → ∀ e ∈ es, ∃ s, e.1 = .text s

theorem lossless_number {x : Float} : (number x).Lossless ↔ Number.isFinite x = true := by
  constructor
  · intro h
    exact h.numbers x (.self _)
  · intro h
    refine ⟨?_, nofun⟩
    intro y hy
    cases hy
    exact h

theorem lossless_boolean (b : Bool) : (boolean b).Lossless := ⟨nofun, nofun⟩

theorem lossless_text (s : String) : (text s).Lossless := ⟨nofun, nofun⟩

theorem lossless_sequence {items : List Value} :
    (sequence items).Lossless ↔ ∀ v ∈ items, v.Lossless := by
  constructor
  · intro h v hv
    exact ⟨fun x hx => h.numbers x (.item hv hx), fun es hes => h.keys es (.item hv hes)⟩
  · intro h
    constructor
    · rintro x (_ | ⟨hv, hx⟩ | _)
      exact (h _ hv).numbers x hx
    · rintro es (_ | ⟨hv, hes⟩ | _)
      exact (h _ hv).keys es hes

theorem lossless_mapping {es : Mapping} :
    (mapping es).Lossless ↔ ∀ e ∈ es, (∃ s, e.1 = .text s) ∧ e.2.Lossless := by
  constructor
  · intro h e he
    exact ⟨h.keys es (.self _) e he,
      fun x hx => h.numbers x (.entry he hx), fun fs hfs => h.keys fs (.entry he hfs)⟩
  · intro h
    constructor
    · rintro x (_ | _ | ⟨he, hx⟩)
      exact (h _ he).2.numbers x hx
    · rintro fs (_ | _ | ⟨he, hfs⟩)
      · exact fun e he => (h e he).1
      · exact (h _ he).2.keys fs hfs

/-! ## Equality with the canonical form -/

theorem wellKeyed_canon (v : Value) : v.canon.WellKeyed :=
  Json.wellKeyed_toValue _ (toValue_ofValue v)

theorem beq_self_of_isFinite {x : Float} (h : Number.isFinite x = true) :
    (number x == number x) = true := by
  rw [beq_number, Number.beq_self_iff]
  rw [Number.isFinite, decide_eq_true_eq] at h
  exact decide_eq_false (Nat.lt_asymm h)

theorem text_beq_self (s : String) : (text s == text s) = true :=
  (beq_self_iff_defined (wellKeyed_text s)).2 (defined_text s)

theorem sequence_map_beq {f : Value → Value} {vs : List Value} :
    (sequence (vs.map f) == sequence vs) = true ↔ ∀ v ∈ vs, (f v == v) = true := by
  induction vs with
  | nil => simp [beq_sequence_nil]
  | cons v vs ih => rw [List.map_cons, beq_sequence_cons, Bool.and_eq_true, ih, List.forall_mem_cons]

section Texts

variable {es : Mapping} (hd : Assoc.Distinct es) (hkeys : ∀ e ∈ es, ∃ s, e.1 = .text s)
include hd hkeys

theorem nodup_named : ((named es).map (·.1)).Nodup := by
  rw [named, List.map_map]
  refine List.pairwise_map.2 (List.Pairwise.imp_of_mem ?_ hd)
  intro e f he hf hne heq
  obtain ⟨s, hs⟩ := hkeys e he
  obtain ⟨t, ht⟩ := hkeys f hf
  have hst : s = t := by simpa [hs, ht] using heq
  rw [hs, ht, hst, text_beq_self] at hne
  cases hne.1

/-- Fields made of entries whose keys are texts are the entries in another order. -/
theorem perm_ofList_named : (Fields.ofList (named es)).Perm (named es) :=
  Fields.perm_ofList (nodup_named hd hkeys)

/-- They hold what the mapping finds. -/
theorem get?_ofList_named (name : String) :
    Assoc.get? (Fields.ofList (named es)) name = Mapping.get? es (.text name) := by
  have hself : keyed (named es) = es := by
    rw [keyed, named, List.map_map]
    refine (List.map_congr_left fun e he => ?_).trans (List.map_id es)
    obtain ⟨s, hs⟩ := hkeys e he
    simp only [Function.comp_apply, hs, toText_text]
    rw [← hs]
    rfl
  have hnodup := ((perm_ofList_named hd hkeys).map (·.1)).nodup_iff.2 (nodup_named hd hkeys)
  rw [Assoc.get?_perm (perm_ofList_named hd hkeys) hnodup, ← get?_keyed, hself]

end Texts

/-- The entries of a canonical form: a text as the key, which is that of the key of an entry, and what
is left of the value of this entry. -/
theorem mem_keyed_canon {es : Mapping} {f : Value × Value}
    (h : f ∈ keyed ((Fields.ofList (named es)).map fun g => (g.1, canon g.2))) :
    ∃ e ∈ es, f = (.text e.1.toText, canon e.2) := by
  obtain ⟨g, hg, rfl⟩ := List.mem_map.1 h
  obtain ⟨n, hn, rfl⟩ := List.mem_map.1 hg
  obtain ⟨e, he, hkey, hvalue⟩ := exists_of_mem_ofList_named hn
  exact ⟨e, he, by rw [hkey, hvalue]⟩

theorem canon_beq_iff (hv : v.WellKeyed) : (v.canon == v) = true ↔ v.Lossless := by
  induction v using Value.induction with
  | number x =>
    rw [canon, lossless_number]
    split
    · next hx => exact iff_of_true (beq_self_of_isFinite hx) hx
    · next hx => exact iff_of_false Bool.false_ne_true hx
  | boolean b =>
    have hself : (boolean b == boolean b) = true :=
      (beq_self_iff_defined (wellKeyed_boolean b)).2 (defined_boolean b)
    exact iff_of_true hself (lossless_boolean b)
  | text s => exact iff_of_true (text_beq_self s) (lossless_text s)
  | sequence vs ih =>
    rw [wellKeyed_sequence] at hv
    rw [canon_sequence, sequence_map_beq, lossless_sequence]
    exact forall₂_congr fun v hv' => ih v hv' (hv v hv')
  | mapping es ih =>
    have hcanon := wellKeyed_canon (mapping es)
    rw [canon_mapping, wellKeyed_mapping] at hcanon
    obtain ⟨hd, hes⟩ := (wellKeyed_mapping es).1 hv
    rw [canon_mapping, lossless_mapping, beq_mapping_iff coherent_wellKeyed
      (fun e he => (hcanon.2 e he).1) (fun e he => (hes e he).1) hd]
    constructor
    · rintro ⟨hlen, hcovers⟩
      have hback := hcovers.symm coherent_wellKeyed hcanon.2 hes hcanon.1 hlen
      -- Every entry has a text as its key, as it equals an entry of the canonical form.
      have hkeys : ∀ e ∈ es, ∃ s, e.1 = .text s := by
        intro e he
        obtain ⟨f, hf, hkey, -⟩ := hback e he
        obtain ⟨e', -, rfl⟩ := mem_keyed_canon hf
        exact ⟨_, eq_text_of_beq hkey⟩
      intro e he
      refine ⟨hkeys e he, ((ih e he).2 (hes e he).2).1 ?_⟩
      -- That entry is what is left of an entry with the same key, and so of this one.
      obtain ⟨f, hf, hkey, hvalue⟩ := hback e he
      obtain ⟨e', he', rfl⟩ := mem_keyed_canon hf
      obtain ⟨s, hs⟩ := hkeys e' he'
      rw [hs, toText_text, ← hs] at hkey
      rw [← hd.eq_of_beq he' he hkey] at hvalue ⊢
      exact hvalue
    · intro h
      have hkeys : ∀ e ∈ es, ∃ s, e.1 = .text s := fun e he => (h e he).1
      constructor
      · have hlength := (perm_ofList_named hd hkeys).length_eq
        rw [keyed, List.length_map, List.length_map, hlength, named, List.length_map]
      · intro f hf
        obtain ⟨e, he, rfl⟩ := mem_keyed_canon hf
        obtain ⟨s, hs⟩ := hkeys e he
        refine ⟨e, he, ?_, ?_⟩
        · rw [hs, toText_text]
          exact text_beq_self s
        · have hvalue := ((ih e he).2 (hes e he).2).2 (h e he).2
          exact coherent_wellKeyed.symm (wellKeyed_canon e.2) (hes e he).2 hvalue

/-- **Writing as JSON canonicalises.** Every value can be written and read back, as what is written has
no null in it. Nothing changes when this is done once more, nor when it is done with the value of a
document. A value with distinct keys equals what was read back just when all numbers outside of keys are
finite and all keys of mappings outside of keys are texts. -/
theorem json_canonicalises :
    (∀ v : Value, (Json.ofValue v).WellFormed ∧ ¬ Json.Within .null (Json.ofValue v) ∧
      ∃ c, (Json.ofValue v).toValue = .ok c ∧ (Json.ofValue c).toValue = .ok c ∧
        (v.WellKeyed → ((c == v) = true ↔
          (∀ x, Reached (.number x) v → Number.isFinite x = true) ∧
          ∀ es, Reached (.mapping es) v → ∀ e ∈ es, ∃ s, e.1 = .text s))) ∧
    ∀ (j : Json) (w : Value), j.WellFormed → j.toValue = .ok w → (Json.ofValue w).toValue = .ok w := by
  refine ⟨fun v => ?_, fun j w hj hw => (Json.canonical_toValue hj hw).toValue_ofValue⟩
  have hwritten := toValue_ofValue v
  refine ⟨wellFormed_ofValue v, Json.not_within_null hwritten, v.canon, hwritten,
    (canonical_canon v).toValue_ofValue, fun hv => ?_⟩
  rw [canon_beq_iff hv]
  exact ⟨fun h => ⟨h.numbers, h.keys⟩, fun h => ⟨h.1, h.2⟩⟩

/-- Two keys fall together, and the undefined number under the first of them goes with it. -/
theorem json_canonicalises_colliding :
    let v : Value := .mapping [(.text "1.0", .number Number.undefined),
      (.number 1.0, .sequence [.boolean true]), (.text "", .number (-0.0))]
    let c : Value := .mapping [(.text "", .number (-0.0)), (.text "1.0", .sequence [.boolean true])]
    let j : Json := .object [("a", .integer (2 ^ 64 - 1)), ("b", .array [.real (-0.0)])]
    let w : Value := .mapping [(.text "a", .number (Number.ofInt (2 ^ 64 - 1))),
      (.text "b", .sequence [.number (-0.0)])]
    v.WellKeyed ∧ (Json.ofValue v).toValue = .ok c ∧ (Json.ofValue c).toValue = .ok c ∧
      (c == v) = false ∧ j.WellFormed ∧ j.toValue = .ok w ∧ (Json.ofValue w).toValue = .ok w := by
  intro v c j w
  have hv : v.WellKeyed := by simp [v, Assoc.Distinct]; decide
  have hj : j.WellFormed := by
    refine .object (Fields.ordered_iff.2 (by decide)) ?_
    intro f hf
    rcases List.mem_pair.1 hf with rfl | rfl
    · exact .integer (by decide)
    · refine .array (fun i hi => ?_)
      rw [List.mem_singleton.1 hi]
      exact .real (by decide)
  have hread : j.toValue = .ok w := rfl
  have hc : (Json.ofValue v).toValue = .ok c := rfl
  obtain ⟨hvalues, hdocuments⟩ := json_canonicalises
  obtain ⟨-, -, c', hc', hagain, hiff⟩ := hvalues v
  obtain rfl : c = c' := Except.ok.inj (hc.symm.trans hc')
  refine ⟨hv, hc, hagain, ?_, hj, hread, hdocuments j w hj hread⟩
  rw [← Bool.not_eq_true, hiff hv]
  rintro ⟨-, hkeys⟩
  obtain ⟨s, hs⟩ := hkeys _ (.self v) (.number 1.0, .sequence [.boolean true]) (by simp)
  cases hs

end Formula.Value
