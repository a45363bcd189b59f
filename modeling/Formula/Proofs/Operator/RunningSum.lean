import Formula.Proofs.Operator.Concatenation
/-!
# Running sums

Values are added one after the other. Which meaning of `+` a step takes is decided by the kind that the
steps before it have left, and hardly by the operand: a text and a sequence take in whatever comes, a
mapping takes in mappings only, and a number stays one up to the first operand that is neither a number
nor a boolean. `Kind.added?` is this automaton; the runs of it are the runs of `+`.

Results:
* `kind_addition`, `addition_eq_error`: one step, by the kinds of the operands.
* `addUp_append`: a run goes on from where it has come to.
* `kind_addUp_iff`: the kinds of a run.
* `running_sums`: what is added up, from each kind.
-/
namespace Formula

/-- The kinds that count as numbers. -/
def Kind.IsNumeric (k : Kind) : Prop := k = .number ∨ k = .boolean

instance (k : Kind) : Decidable k.IsNumeric := inferInstanceAs (Decidable (_ ∨ _))

/-- The kind of the sum of two values of these kinds, where there is a sum. -/
def Kind.added? : Kind → Kind → Option Kind
  | .text, _ => some .text
  | .sequence, _ => some .sequence
  | .mapping, k => if k = .mapping then some .mapping else none
  | .number, k | .boolean, k => if k.IsNumeric then some .number else some .text

/-- What a value adds to a sequence: its items if it is one, else itself. -/
def Value.addedItems : Value → List Value
  | .sequence items => items
  | v => [v]

theorem Value.isNumeric_kind_iff {v : Value} : v.kind.IsNumeric ↔ ∃ x, v.promoted? = some x := by
  cases v <;> simp [Value.kind, Kind.IsNumeric, Value.promoted?]

section Steps

variable {σ : Type} [Scope σ] (scope : σ) {a b : Value} {x y : Float}

/-! ## One step -/

theorem apply_addition_sequence (xs : List Value) (v : Value) :
    apply "+" [.sequence xs, v] scope = .ok (some (.sequence (xs ++ v.addedItems))) := by
  cases v <;> rfl

theorem apply_addition_mapping_error (m : Mapping) {v : Value} (h : v.kind ≠ .mapping) :
    apply "+" [.mapping m, v] scope = .error (.unsupported "+" v.kind) := by
  cases v with
  | mapping => exact absurd rfl h
  | number | boolean | text | sequence => rfl

theorem apply_addition_numbers (ha : a.promoted? = some x) (hb : b.promoted? = some y) :
    apply "+" [a, b] scope = .ok (some (.number (x + y))) := by
  have hbranch : Combination.of a b = .numbers x y := by
    simp only [Combination.of, ha, hb]
  rw [apply_addition, Arithmetic.apply, hbranch]
  rfl

/-- What is no number turns a running number into a text. -/
theorem apply_addition_number_text (ha : a.kind.IsNumeric) (hb : ¬ b.kind.IsNumeric) :
    apply "+" [a, b] scope = .ok (some (.text (a.toText ++ b.toText))) := by
  have hbranch : Combination.of a b = .texts a.toText b.toText := by
    cases b with
    | number => exact absurd (.inl rfl) hb
    | boolean => exact absurd (.inr rfl) hb
    | text | sequence | mapping =>
      cases a with
      | number | boolean => rfl
      | text | sequence | mapping => simp [Value.kind, Kind.IsNumeric] at ha
  rw [apply_addition, Arithmetic.apply, hbranch]
  rfl

/-- The kind of a sum depends on nothing but the kinds of its operands. -/
theorem kind_addition {k : Kind} (h : a.kind.added? b.kind = some k) :
    ∃ c, apply "+" [a, b] scope = .ok (some c) ∧ c.kind = k := by
  have number (ha : a.kind.IsNumeric)
      (h : (if b.kind.IsNumeric then some Kind.number else some .text) = some k) :
      ∃ c, apply "+" [a, b] scope = .ok (some c) ∧ c.kind = k := by
    split at h
    · next hb =>
      obtain ⟨x, hx⟩ := Value.isNumeric_kind_iff.1 ha
      obtain ⟨y, hy⟩ := Value.isNumeric_kind_iff.1 hb
      exact ⟨_, apply_addition_numbers scope hx hy, Option.some.inj h⟩
    · next hb => exact ⟨_, apply_addition_number_text scope ha hb, Option.some.inj h⟩
  cases a with
  | number => exact number (.inl rfl) h
  | boolean => exact number (.inr rfl) h
  | text s => exact ⟨_, apply_addition_text scope s b, Option.some.inj h⟩
  | sequence xs => exact ⟨_, apply_addition_sequence scope xs b, Option.some.inj h⟩
  | mapping m =>
    change (if b.kind = .mapping then some Kind.mapping else none) = some k at h
    split at h
    · next hb =>
      cases b <;> cases hb
      exact ⟨_, apply_addition_mappings scope m _, Option.some.inj h⟩
    · cases h

/-- There is no sum only of a mapping and something else. -/
theorem addition_eq_error (h : a.kind.added? b.kind = none) :
    apply "+" [a, b] scope = .error (.unsupported "+" b.kind) := by
  cases a with
  | mapping m =>
    change (if b.kind = .mapping then some Kind.mapping else none) = none at h
    split at h
    · cases h
    · next hb => exact apply_addition_mapping_error scope m hb
  | number | boolean =>
    change (if b.kind.IsNumeric then some Kind.number else some .text) = none at h
    split at h <;> cases h
  | text | sequence => cases h

/-! ## Runs -/

/-- A run goes on from where it has come to. -/
theorem addUp_append {r : Value} {us : List Value} (h : addUp scope a us = .ok (some r))
    (ws : List Value) : addUp scope a (us ++ ws) = addUp scope r ws := by
  induction us generalizing a with
  | nil =>
    cases h
    rfl
  | cons u us ih =>
    rw [List.cons_append, addUp]
    rw [addUp] at h
    split at h
    · next c hc => exact ih h
    · next outcome hnone => exact absurd h (hnone r)

theorem addUp_sequences (xs ws : List Value) :
    addUp scope (.sequence xs) ws =
      .ok (some (.sequence (xs ++ ws.flatMap Value.addedItems))) := by
  induction ws generalizing xs with
  | nil => simp [addUp]
  | cons w ws ih =>
    rw [addUp, apply_addition_sequence]
    dsimp only
    rw [ih, List.flatMap_cons, List.append_assoc]

theorem addUp_mappings (m : Mapping) {ws : List Value} (h : ∀ w ∈ ws, w.kind = .mapping) :
    ∃ n, addUp scope (.mapping m) ws = .ok (some (.mapping n)) := by
  induction ws generalizing m with
  | nil => exact ⟨m, rfl⟩
  | cons w ws ih =>
    obtain ⟨hw, hws⟩ := List.forall_mem_cons.1 h
    cases w <;> cases hw
    rw [addUp, apply_addition_mappings]
    exact ih _ hws

theorem kind_eq_mapping_of_addUp {m : Mapping} {ws : List Value} {r : Option Value}
    (h : addUp scope (.mapping m) ws = .ok r) : ∀ w ∈ ws, w.kind = .mapping := by
  induction ws generalizing m with
  | nil => simp
  | cons w ws ih =>
    by_cases hw : w.kind = .mapping
    · refine List.forall_mem_cons.2 ⟨hw, ?_⟩
      cases w <;> cases hw
      rw [addUp, apply_addition_mappings] at h
      exact ih h
    · rw [addUp, apply_addition_mapping_error scope m hw] at h
      cases h

/-- The numbers of a list of values are added from left to right. -/
theorem addUp_numbers {ns : List Value} (ha : a.promoted? = some x)
    (hns : ∀ v ∈ ns, v.kind.IsNumeric) :
    ∃ r, addUp scope a ns = .ok (some r) ∧
      r.promoted? = some ((ns.filterMap Value.promoted?).foldl (· + ·) x) ∧
      (ns ≠ [] → r.kind = .number) := by
  induction ns generalizing a x with
  | nil => exact ⟨a, rfl, ha, fun h => absurd rfl h⟩
  | cons v ns ih =>
    obtain ⟨hv, hns⟩ := List.forall_mem_cons.1 hns
    obtain ⟨y, hy⟩ := Value.isNumeric_kind_iff.1 hv
    obtain ⟨r, hr, hsum, hkind⟩ := ih (a := .number (x + y)) rfl hns
    rw [addUp, apply_addition_numbers scope ha hy, List.filterMap_cons_some hy]
    refine ⟨r, hr, hsum, fun _ => ?_⟩
    cases ns with
    | nil =>
      cases hr
      rfl
    | cons w ws => exact hkind (List.cons_ne_nil w ws)

/-- The kinds of a run are a run of the kinds. -/
theorem kind_addUp_iff {ws : List Value} {k : Kind} :
    (ws.map Value.kind).foldlM Kind.added? a.kind = some k ↔
      ∃ r, addUp scope a ws = .ok (some r) ∧ r.kind = k := by
  induction ws generalizing a with
  | nil => simp [addUp]
  | cons w ws ih =>
    rw [List.map_cons, List.foldlM_cons, addUp]
    cases hk : a.kind.added? w.kind with
    | none =>
      rw [addition_eq_error scope hk]
      refine iff_of_false (fun h => ?_) ?_
      · cases h
      · rintro ⟨r, h, -⟩
        cases h
    | some k' =>
      obtain ⟨c, hc, rfl⟩ := kind_addition scope hk
      rw [hc]
      exact ih

end Steps

/-- **Running sums.** A run goes on from where it has come to, and the kinds of its values are a run of
the automaton on kinds. From a text it appends the texts of the operands, from a sequence their items or
the operands themselves, one level deep. From a mapping it gets through mappings and fails at the first
operand that is none, with the kind of this operand. From a number or a boolean it adds numbers, up to
the first operand of another kind; there it becomes a text. -/
theorem running_sums {σ : Type} [Scope σ] (scope : σ) :
    (∀ (r₀ r : Value) (us ws : List Value), addUp scope r₀ us = .ok (some r) →
      addUp scope r₀ (us ++ ws) = addUp scope r ws) ∧
    (∀ (r₀ : Value) (ws : List Value) (k : Kind),
      (ws.map Value.kind).foldlM Kind.added? r₀.kind = some k ↔
        ∃ r, addUp scope r₀ ws = .ok (some r) ∧ r.kind = k) ∧
    (∀ (s : String) (ws : List Value), addUp scope (.text s) ws =
      .ok (some (.text (s ++ String.join (ws.map Value.toText))))) ∧
    (∀ xs ws : List Value, addUp scope (.sequence xs) ws =
      .ok (some (.sequence (xs ++ ws.flatMap Value.addedItems)))) ∧
    (∀ m : Mapping,
      (∀ ws : List Value, (∃ r, addUp scope (.mapping m) ws = .ok r) ↔
        ∀ w ∈ ws, w.kind = .mapping) ∧
      (∀ (ms : List Value) (w : Value) (rest : List Value), (∀ v ∈ ms, v.kind = .mapping) →
        w.kind ≠ .mapping →
        (∃ n, addUp scope (.mapping m) ms = .ok (some (.mapping n))) ∧
        addUp scope (.mapping m) (ms ++ w :: rest) = .error (.unsupported "+" w.kind))) ∧
    (∀ (r₀ : Value) (x : Float) (ns : List Value), r₀.promoted? = some x →
      (∀ v ∈ ns, v.kind.IsNumeric) →
      ∃ r, addUp scope r₀ ns = .ok (some r) ∧
        r.promoted? = some ((ns.filterMap Value.promoted?).foldl (· + ·) x) ∧
        (ns ≠ [] → r.kind = .number) ∧
        ∀ (w : Value) (rest : List Value), ¬ w.kind.IsNumeric →
          addUp scope r₀ (ns ++ w :: rest) =
            .ok (some (.text (r.toText ++ w.toText ++ String.join (rest.map Value.toText))))) := by
  have hfails (m : Mapping) (ms : List Value) (w : Value) (rest : List Value)
      (hms : ∀ v ∈ ms, v.kind = .mapping) (hw : w.kind ≠ .mapping) :
      (∃ n, addUp scope (.mapping m) ms = .ok (some (.mapping n))) ∧
        addUp scope (.mapping m) (ms ++ w :: rest) = .error (.unsupported "+" w.kind) := by
    obtain ⟨n, hn⟩ := addUp_mappings scope m hms
    refine ⟨⟨n, hn⟩, ?_⟩
    rw [addUp_append scope hn, addUp, apply_addition_mapping_error scope n hw]
  refine ⟨fun r₀ r us ws h => addUp_append scope h ws, fun r₀ ws k => kind_addUp_iff scope,
    addUp_texts scope, addUp_sequences scope, fun m => ⟨fun ws => ⟨?_, ?_⟩, hfails m⟩, ?_⟩
  · rintro ⟨r, hr⟩
    exact kind_eq_mapping_of_addUp scope hr
  · intro hws
    obtain ⟨n, hn⟩ := addUp_mappings scope m hws
    exact ⟨_, hn⟩
  · intro r₀ x ns hx hns
    obtain ⟨r, hr, hsum, hkind⟩ := addUp_numbers scope hx hns
    refine ⟨r, hr, hsum, hkind, fun w rest hw => ?_⟩
    have hnumeric := Value.isNumeric_kind_iff.2 ⟨_, hsum⟩
    rw [addUp_append scope hr, addUp, apply_addition_number_text scope hnumeric hw]
    exact addUp_texts scope _ rest

/-- A truth value becomes a number, then a text at a mapping, and stays one; a mapping takes in a mapping
and fails at a sequence; a sequence takes in items of one level. -/
theorem running_sums_mixed :
    let m : Value := .mapping [(.text "k", .boolean false)]
    let items : Value := .sequence [.sequence [.number 2.0]]
    addUp Variables.empty (.boolean true) [.number 0.5, m, items, .number 2.0] =
        .ok (some (.text "1.5{k=false}[[2.0]]2.0")) ∧
      ([.number, .mapping, .sequence, .number] : List Kind).foldlM Kind.added? .boolean =
        some .text ∧
      addUp Variables.empty m [m, items, m] = .error (.unsupported "+" .sequence) ∧
      addUp Variables.empty (.sequence [m]) [items, .text "x"] =
        .ok (some (.sequence [m, .sequence [.number 2.0], .text "x"])) ∧
      addUp Variables.empty (.sequence [m]) ([items] ++ [.text "x"]) =
        addUp Variables.empty (.sequence [m, .sequence [.number 2.0]]) [.text "x"] := by
  intro m items
  obtain ⟨hcontinue, hkinds, -, hsequence, hmapping, hnumber⟩ := running_sums Variables.empty
  obtain ⟨r, hr, -, -, htext⟩ :=
    hnumber (.boolean true) 1.0 [.number 0.5] rfl (by simp [Value.kind, Kind.IsNumeric])
  cases hr
  have hmixed := htext m [items, .number 2.0] (by decide)
  have hvalue : (Value.number (numberOfBool true + 0.5)).toText ++ m.toText ++
      String.join ([items, .number 2.0].map Value.toText) = "1.5{k=false}[[2.0]]2.0" := by
    decide +kernel
  rw [hvalue] at hmixed
  have hfirst : addUp Variables.empty (.sequence [m]) [items] =
      .ok (some (.sequence [m, .sequence [.number 2.0]])) := hsequence [m] [items]
  exact ⟨hmixed, (hkinds _ [.number 0.5, m, items, .number 2.0] _).2 ⟨_, hmixed, rfl⟩,
    ((hmapping _).2 [m] items [m] (by simp [m, Value.kind]) (by decide)).2,
    hsequence [m] [items, .text "x"], hcontinue _ _ _ _ hfirst⟩

end Formula
