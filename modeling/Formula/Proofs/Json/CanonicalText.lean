import Formula.Proofs.Json.Lossless
import Formula.Proofs.Json.Readability
import Formula.Proofs.Mapping.Extensional
import Formula.Proofs.Number.Order
/-!
# Texts of equal values

Values that JSON keeps have the same text when they are equal, and at no other time: the fields of an
object are put in order, so where an entry stands in its mapping cannot be seen, and different documents
have different texts. The one pair of equal numbers with different texts is that of the zeros.

Of any other mapping the text shows, under each text that keys have, the value of the last of them.

Results:
* `ofValue_eq_of_beq`, `beq_of_ofValue_eq`: equal values, and documents that are the same.
* `mem_fields_iff`: the fields of any mapping.
* `texts_are_canonical`: what is printed.
-/
namespace Formula.Value

variable {v w : Value} {m n : Mapping}

/-- The value is kept by JSON and has distinct keys, and none of its numbers is the negative zero. -/
structure Printable (v : Value) : Prop extends Lossless v where
  wellKeyed : v.WellKeyed
  zeros : ∀ x, Reached (.number x) v → x ≠ -0.0

theorem printable_number {x : Float} : (number x).Printable ↔ Number.isFinite x = true ∧ x ≠ -0.0 := by
  constructor
  · intro h
    exact ⟨lossless_number.1 h.toLossless, h.zeros x (.self _)⟩
  · rintro ⟨hx, hzero⟩
    refine ⟨lossless_number.2 hx, wellKeyed_number x, fun y hy => ?_⟩
    cases hy
    exact hzero

theorem printable_boolean (b : Bool) : (boolean b).Printable :=
  ⟨lossless_boolean b, wellKeyed_boolean b, nofun⟩

theorem printable_text (s : String) : (text s).Printable := ⟨lossless_text s, wellKeyed_text s, nofun⟩

theorem printable_sequence {items : List Value} :
    (sequence items).Printable ↔ ∀ v ∈ items, v.Printable := by
  constructor
  · intro h v hv
    exact ⟨lossless_sequence.1 h.toLossless v hv, (wellKeyed_sequence items).1 h.wellKeyed v hv,
      fun x hx => h.zeros x (.item hv hx)⟩
  · intro h
    refine ⟨lossless_sequence.2 fun v hv => (h v hv).toLossless,
      (wellKeyed_sequence items).2 fun v hv => (h v hv).wellKeyed, ?_⟩
    rintro x (_ | ⟨hv, hx⟩ | _)
    exact (h _ hv).zeros x hx

theorem printable_mapping : (mapping m).Printable ↔
    Assoc.Distinct m ∧ ∀ e ∈ m, (∃ s, e.1 = .text s) ∧ e.2.Printable := by
  constructor
  · intro h
    obtain ⟨hd, hm⟩ := (wellKeyed_mapping m).1 h.wellKeyed
    refine ⟨hd, fun e he => ?_⟩
    obtain ⟨hkey, hvalue⟩ := lossless_mapping.1 h.toLossless e he
    exact ⟨hkey, hvalue, (hm e he).2, fun x hx => h.zeros x (.entry he hx)⟩
  · rintro ⟨hd, h⟩
    refine ⟨lossless_mapping.2 fun e he => ⟨(h e he).1, (h e he).2.toLossless⟩,
      (wellKeyed_mapping m).2 ⟨hd, fun e he => ⟨?_, (h e he).2.wellKeyed⟩⟩, ?_⟩
    · obtain ⟨s, hs⟩ := (h e he).1
      exact hs ▸ wellKeyed_text s
    · rintro x (_ | _ | ⟨he, hx⟩)
      exact (h _ he).2.zeros x hx

theorem Printable.value (h : (mapping m).Printable) {e : Value × Value} (he : e ∈ m) :
    e.2.Printable :=
  ((printable_mapping.1 h).2 e he).2

/-- The fields of a mapping hold what it finds. -/
theorem Printable.get?_ofList_named (h : (mapping m).Printable) (name : String) :
    Assoc.get? (Fields.ofList (named m)) name = Mapping.get? m (.text name) :=
  Value.get?_ofList_named (printable_mapping.1 h).1 (fun e he => ((printable_mapping.1 h).2 e he).1) name

/-! ## Equal values -/

theorem ofValue_mapping_eq (hm : (mapping m).Printable) (hn : (mapping n).Printable)
    {R : Value → Value → Prop}
    (h : ∀ name : String, Option.Rel R (Mapping.get? m (.text name)) (Mapping.get? n (.text name)))
    (hR : ∀ e ∈ m, ∀ f ∈ n, R e.2 f.2 → Json.ofValue e.2 = Json.ofValue f.2) :
    Json.ofValue (.mapping m) = Json.ofValue (.mapping n) := by
  rw [ofValue_mapping, ofValue_mapping]
  refine congrArg Json.object (Fields.Ordered.ext ((Fields.ordered_ofList _).map _)
    ((Fields.ordered_ofList _).map _) fun name => ?_)
  rw [Fields.get?_map, Fields.get?_map, hm.get?_ofList_named, hn.get?_ofList_named]
  refine map_eq_map_of_rel (h name) fun v w hv hw hvw => ?_
  obtain ⟨e, he, -, rfl⟩ := Assoc.mem_of_get? hv
  obtain ⟨f, hf, -, rfl⟩ := Assoc.mem_of_get? hw
  exact hR e he f hf hvw

theorem ofValue_eq_of_beq (hv : v.Printable) (hw : w.Printable) (h : (v == w) = true) :
    Json.ofValue v = Json.ofValue w := by
  induction v using Value.induction generalizing w with
  | number x =>
    obtain ⟨y, rfl, hxy⟩ := eq_number_of_beq h
    rw [printable_number] at hv hw
    rw [Number.eq_of_beq hxy hv.1 hv.2 hw.2]
  | boolean b => rw [eq_boolean_of_beq h]
  | text s => rw [eq_text_of_beq h]
  | sequence vs ih =>
    obtain ⟨ws, rfl⟩ := eq_sequence_of_beq h
    have halike := alike_sequence.1 ⟨hv.wellKeyed, hw.wellKeyed, h⟩
    rw [ofValue_sequence, ofValue_sequence]
    refine congrArg Json.array (map_eq_map_of_forall₂ halike fun v hvs w hws hvw => ?_)
    exact ih v hvs (printable_sequence.1 hv v hvs) (printable_sequence.1 hw w hws) hvw.equal
  | mapping m ih =>
    obtain ⟨n, rfl⟩ := eq_mapping_of_beq h
    have halike : Alike (.mapping m) (.mapping n) := ⟨hv.wellKeyed, hw.wellKeyed, h⟩
    refine ofValue_mapping_eq hv hw
      (fun name => Mapping.rel_get?_of_alike halike (wellKeyed_text name)) fun e he f hf hef => ?_
    exact (ih e he).2 (hv.value he) (hw.value hf) hef.equal

theorem beq_of_ofValue_eq (hv : v.Printable) (hw : w.Printable)
    (h : Json.ofValue v = Json.ofValue w) : (v == w) = true := by
  have hcanon : v.canon = w.canon :=
    Except.ok.inj ((toValue_ofValue v).symm.trans (h ▸ toValue_ofValue w))
  have hleft := (canon_beq_iff hv.wellKeyed).2 hv.toLossless
  have hright := (canon_beq_iff hw.wellKeyed).2 hw.toLossless
  have hP := coherent_wellKeyed
  refine hP.trans hv.wellKeyed (wellKeyed_canon v) hw.wellKeyed ?_ (hcanon ▸ hright)
  exact hP.symm (wellKeyed_canon v) hv.wellKeyed hleft

/-! ## Fields of any mapping -/

theorem mem_fields_iff {name : String} {j : Json} :
    (name, j) ∈ (Fields.ofList (named m)).map (fun f => (f.1, Json.ofValue f.2)) ↔
      ∃ before e after, m = before ++ e :: after ∧ e.1.toText = name ∧
        (∀ f ∈ after, f.1.toText ≠ name) ∧ j = Json.ofValue e.2 := by
  rw [List.mem_map]
  constructor
  · rintro ⟨f, hf, heq⟩
    cases heq
    obtain ⟨before, after, hsplit, hafter⟩ := Fields.mem_ofList_iff.1 hf
    obtain ⟨before, rest, rfl, rfl, hrest⟩ := List.map_eq_append_iff.1 hsplit
    obtain ⟨e, after, rfl, rfl, rfl⟩ := List.map_eq_cons_iff.1 hrest
    exact ⟨before, e, after, rfl, rfl, fun g hg => hafter _ (List.mem_map_of_mem hg), rfl⟩
  · rintro ⟨before, e, after, rfl, rfl, hafter, rfl⟩
    refine ⟨(e.1.toText, e.2), Fields.mem_ofList_iff.2 ?_, rfl⟩
    refine ⟨named before, named after, by simp [named], fun g hg => ?_⟩
    obtain ⟨f, hf, rfl⟩ := List.mem_map.1 hg
    exact hafter f hf

theorem exists_mem_fields_iff {name : String} :
    (∃ j, (name, j) ∈ (Fields.ofList (named m)).map (fun f => (f.1, Json.ofValue f.2))) ↔
      ∃ e ∈ m, e.1.toText = name := by
  have hnames : (∃ v, (name, v) ∈ Fields.ofList (named m)) ↔ ∃ e ∈ m, e.1.toText = name := by
    rw [Fields.exists_mem_ofList_iff, named]
    simp only [List.mem_map, exists_exists_and_eq_and]
  rw [← hnames]
  constructor
  · rintro ⟨j, hj⟩
    obtain ⟨f, hf, heq⟩ := List.mem_map.1 hj
    cases heq
    exact ⟨f.2, hf⟩
  · rintro ⟨v, hv⟩
    exact ⟨_, List.mem_map_of_mem hv⟩

/-! ## Texts -/

/-- Documents are told from each other by their texts. -/
theorem texts_inj {i j : Json} (hi : i.WellFormed) (hj : j.WellFormed) :
    (i.compact = j.compact ↔ i = j) ∧ (i.pretty = j.pretty ↔ i = j) := by
  refine ⟨⟨fun h => ?_, congrArg _⟩, ⟨fun h => ?_, congrArg _⟩⟩
  · exact hi.write_inj Json.blank_compactStyle hj (String.ofList_inj.1 h)
  · exact hi.write_inj Json.blank_prettyStyle hj (String.ofList_inj.1 h)

/-- **Texts are canonical.** Two values without infinite or undefined numbers and without the negative
zero, whose keys are texts and distinct, are equal just when their compact texts are, and just when
their pretty ones are. So mappings that find equal values under every text are printed alike, however
they came about. The object of any mapping has its fields in the order of the bytes of their names, one
for each text of a key, with the value of the last entry whose key has this text. -/
theorem texts_are_canonical :
    (∀ v w : Value, v.Printable → w.Printable →
      ((v == w) = true ↔ (Json.ofValue v).compact = (Json.ofValue w).compact) ∧
      ((v == w) = true ↔ (Json.ofValue v).pretty = (Json.ofValue w).pretty)) ∧
    (∀ m n : Mapping, (mapping m).Printable → (mapping n).Printable →
      (∀ s : String, Option.Rel (fun a b => (a == b) = true) (m.get? (.text s)) (n.get? (.text s))) →
        (Json.ofValue (.mapping m)).compact = (Json.ofValue (.mapping n)).compact ∧
          (Json.ofValue (.mapping m)).pretty = (Json.ofValue (.mapping n)).pretty) ∧
    ∀ es : Mapping, ∃ fields, Json.ofValue (.mapping es) = .object fields ∧ Fields.Ordered fields ∧
      (∀ name, (∃ j, (name, j) ∈ fields) ↔ ∃ e ∈ es, e.1.toText = name) ∧
      ∀ name j, (name, j) ∈ fields ↔ ∃ before e after, es = before ++ e :: after ∧
        e.1.toText = name ∧ (∀ f ∈ after, f.1.toText ≠ name) ∧ j = Json.ofValue e.2 := by
  refine ⟨?_, ?_, ?_⟩
  · intro v w hv hw
    obtain ⟨hcompact, hpretty⟩ := texts_inj (wellFormed_ofValue v) (wellFormed_ofValue w)
    have hdocument : (v == w) = true ↔ Json.ofValue v = Json.ofValue w :=
      ⟨ofValue_eq_of_beq hv hw, beq_of_ofValue_eq hv hw⟩
    exact ⟨hdocument.trans hcompact.symm, hdocument.trans hpretty.symm⟩
  · intro m n hm hn h
    have hsame := ofValue_mapping_eq hm hn h fun e he f hf hef =>
      ofValue_eq_of_beq (hm.value he) (hn.value hf) hef
    rw [hsame]
    exact ⟨rfl, rfl⟩
  · intro es
    exact ⟨_, ofValue_mapping es, (Fields.ordered_ofList _).map _, fun _ => exists_mem_fields_iff,
      fun _ _ => mem_fields_iff⟩

/-- Entries in another order at two levels, texts that look alike, and three keys with one text. -/
theorem texts_are_canonical_permuted :
    let v : Value := .mapping [(.text "b", .number 0.1),
      (.text "a", .sequence [.mapping [(.text "y", .number 1), (.text "x", .boolean true)]])]
    let w : Value := .mapping [(.text "a", .sequence [.mapping [(.text "x", .boolean true),
      (.text "y", .number 1)]]), (.text "b", .number 0.1)]
    let u : Value := .sequence [.text "a,b", .number 1]
    let t : Value := .sequence [.text "a", .text "b", .number 1]
    let es : Mapping := [(.text "b", .number 0), (.text "1.0", .boolean true), (.number 1, .text "p"),
      (.sequence [], .text "q")]
    v.Printable ∧ w.Printable ∧ (Json.ofValue v).compact = (Json.ofValue w).compact ∧
      (Json.ofValue v).pretty = (Json.ofValue w).pretty ∧ u.Printable ∧ t.Printable ∧
      (Json.ofValue u).compact ≠ (Json.ofValue t).compact ∧
      ∃ fields, Json.ofValue (.mapping es) = .object fields ∧ ("1.0", .string "p") ∈ fields ∧
        ("1.0", .boolean true) ∉ fields := by
  intro v w u t es
  have hone : Number.isFinite 1 = true ∧ (1 : Float) ≠ -0.0 := by decide
  have htenth : Number.isFinite 0.1 = true ∧ (0.1 : Float) ≠ -0.0 := by decide
  have hv : v.Printable := by
    simp [v, printable_mapping, printable_sequence, printable_boolean, printable_number,
      Assoc.Distinct, hone, htenth]
    decide
  have hw : w.Printable := by
    simp [w, printable_mapping, printable_sequence, printable_boolean, printable_number,
      Assoc.Distinct, hone, htenth]
    decide
  have hu : u.Printable := by
    simpa [u, printable_sequence, printable_text, printable_number] using hone
  have ht : t.Printable := by
    simpa [t, printable_sequence, printable_text, printable_number] using hone
  obtain ⟨htexts, -, hmapping⟩ := texts_are_canonical
  obtain ⟨hcompact, hpretty⟩ := htexts v w hv hw
  obtain ⟨hdiffer, -⟩ := htexts u t hu ht
  obtain ⟨fields, hfields, hordered, -, hlast⟩ := hmapping es
  have hp : ("1.0", .string "p") ∈ fields :=
    (hlast _ _).2 ⟨[(.text "b", .number 0), (.text "1.0", .boolean true)], (.number 1, .text "p"),
      [(.sequence [], .text "q")], rfl, by decide, by decide, rfl⟩
  refine ⟨hv, hw, hcompact.1 (by decide), hpretty.1 (by decide), hu, ht,
    fun h => absurd (hdiffer.2 h) (by decide), fields, hfields, hp, fun htrue => ?_⟩
  cases List.inj_on_of_nodup_map hordered.nodup htrue hp rfl

end Formula.Value
