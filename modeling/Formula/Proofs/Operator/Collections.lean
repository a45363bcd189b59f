import Formula.Proofs.Mapping.Entries
import Formula.Proofs.Operator.Congruence
/-!
# Laws of sums and differences of collections

A difference keeps the parts of a collection that equal nothing that is removed, the items of a sequence
and the entries of a mapping alike. So several removals are one, in any order, and what was added can
be removed again, but for values with undefined numbers in them, which equal nothing. Sums of mappings
are merges, and no two ways to merge three mappings differ.

Results:
* `merging_is_monoid`: sums of mappings, on their entries.
* `apply_difference`: differences.
* `removal_filters`: removals one after the other, and at once.
* `removal_cancels`: removing what was added.
-/
namespace Formula

open Value (coherent_wellKeyed wellKeyed_sequence wellKeyed_mapping)

section Apply

variable {σ : Type} [Scope σ] (scope : σ)

theorem apply_addition_sequences (a b : List Value) :
    apply "+" [.sequence a, .sequence b] scope = .ok (some (.sequence (a ++ b))) := rfl

theorem apply_addition_mappings (m n : Mapping) :
    apply "+" [.mapping m, .mapping n] scope = .ok (some (.mapping (Mapping.merge m n))) := rfl

theorem apply_subtraction_sequence (items : List Value) (b : Value) :
    apply "-" [.sequence items, b] scope =
      .ok (some (.sequence (Operator.removeItems items b))) := by
  rw [apply_subtraction]
  rfl

theorem apply_subtraction_mapping (m : Mapping) (b : Value) :
    apply "-" [.mapping m, b] scope = .ok (some (.mapping (Operator.removeKeys m b))) := by
  rw [apply_subtraction]
  rfl

end Apply

/-! ## Merging -/

/-- **Merging mappings is an exact monoid.** The two ways to merge three mappings, and a merge with the
empty mapping on either side, give the same entries in the same order, and so does writing the entries
of a mapping one after the other. A merge has the entries of the left mapping in place, with their own
keys and the values that the right one has for them, and then the entries whose keys are new; so a
lookup finds what the right mapping has, or else what the left one has. -/
theorem merging_is_monoid {σ : Type} [Scope σ] (scope : σ) {a b c : Mapping}
    (ha : (Value.mapping a).WellKeyed) (hb : (Value.mapping b).WellKeyed)
    (hc : (Value.mapping c).WellKeyed) :
    (∃ ab bc abc : Mapping,
      apply "+" [.mapping a, .mapping b] scope = .ok (some (.mapping ab)) ∧
      apply "+" [.mapping b, .mapping c] scope = .ok (some (.mapping bc)) ∧
      apply "+" [.mapping ab, .mapping c] scope = .ok (some (.mapping abc)) ∧
      apply "+" [.mapping a, .mapping bc] scope = .ok (some (.mapping abc)) ∧
      (∀ k : Value, k.WellKeyed → ab.get? k = (b.get? k).or (a.get? k)) ∧
      ab = (a.map fun e => (e.1, (b.get? e.1).getD e.2)) ++
        b.filter fun e => !a.any fun f => f.1 == e.1) ∧
    apply "+" [.mapping [], .mapping a] scope = .ok (some (.mapping a)) ∧
    apply "+" [.mapping a, .mapping []] scope = .ok (some (.mapping a)) ∧
    Mapping.ofList a = a := by
  have hself : Mapping.ofList a = a := Mapping.ofList_eq_self ((wellKeyed_mapping a).1 ha).1
  refine ⟨⟨Mapping.merge a b, Mapping.merge b c, Mapping.merge (Mapping.merge a b) c,
    apply_addition_mappings scope a b, apply_addition_mappings scope b c,
    apply_addition_mappings scope _ c, ?_, ?_, ?_⟩, ?_, apply_addition_mappings scope a [], hself⟩
  · rw [apply_addition_mappings, Mapping.merge_assoc ha hb hc]
  · exact fun k hk => Mapping.get?_merge ha hb hk
  · exact Mapping.merge_eq ha hb
  · rw [apply_addition_mappings]
    exact congrArg (fun m => Except.ok (some (Value.mapping m))) hself

/-- The zeros are one key, spelled as in the first mapping, and each undefined key is a new one. -/
theorem merging_is_monoid_zeros :
    let undefined : Value := .number Number.undefined
    let a : Mapping := [(.number 0.0, .text "a"), (undefined, .text "b")]
    let b : Mapping := [(undefined, .text "c"), (.text "k", .text "d")]
    let c : Mapping := [(.text "k", undefined), (.number (-0.0), .text "e")]
    (Value.mapping a).WellKeyed ∧ (Value.mapping b).WellKeyed ∧ (Value.mapping c).WellKeyed ∧
      ∃ ab bc : Mapping,
        apply "+" [.mapping a, .mapping b] Variables.empty = .ok (some (.mapping ab)) ∧
        apply "+" [.mapping b, .mapping c] Variables.empty = .ok (some (.mapping bc)) ∧
        apply "+" [.mapping ab, .mapping c] Variables.empty =
          .ok (some (.mapping [(.number 0.0, .text "e"), (undefined, .text "b"),
            (undefined, .text "c"), (.text "k", undefined)])) ∧
        apply "+" [.mapping ab, .mapping c] Variables.empty =
          apply "+" [.mapping a, .mapping bc] Variables.empty := by
  intro undefined a b c
  have ha : (Value.mapping a).WellKeyed := by simp [a, undefined, Assoc.Distinct]; decide
  have hb : (Value.mapping b).WellKeyed := by simp [b, undefined, Assoc.Distinct]; decide
  have hc : (Value.mapping c).WellKeyed := by simp [c, undefined, Assoc.Distinct]; decide
  obtain ⟨⟨ab, bc, abc, hab, hbc, hleft, hright, -, -⟩, -, -, -⟩ :=
    merging_is_monoid Variables.empty ha hb hc
  refine ⟨ha, hb, hc, ab, bc, hab, hbc, ?_, hleft.trans hright.symm⟩
  cases hab
  rfl

/-! ## Differences -/

namespace Value

theorem WellKeyed.append {xs ys : List Value} (hxs : (sequence xs).WellKeyed)
    (hys : (sequence ys).WellKeyed) : (sequence (xs ++ ys)).WellKeyed := by
  rw [wellKeyed_sequence] at *
  exact List.forall_mem_append.2 ⟨hxs, hys⟩

/-- The items that equal no item are those with an undefined number in them. -/
theorem filter_not_any_beq {xs : List Value} (hxs : (sequence xs).WellKeyed) :
    (xs.filter fun v => !xs.any (v == ·)) = xs.filter fun v => ¬ v.Defined := by
  refine List.filter_congr fun v hv => ?_
  rw [any_beq_eq_defined ((wellKeyed_sequence xs).1 hxs) hv, decide_not]

/-- The parts with the property: the items of a sequence, the entries of a mapping by their keys. -/
def keepParts (p : Value → Bool) : Value → Value
  | .sequence items => .sequence (items.filter p)
  | .mapping es => .mapping (es.filter fun e => p e.1)
  | v => v

variable {v : Value} {p q : Value → Bool}

theorem kind_keepParts (p : Value → Bool) (v : Value) : (v.keepParts p).kind = v.kind := by
  cases v <;> rfl

theorem WellKeyed.keepParts (hv : v.WellKeyed) (p : Value → Bool) : (v.keepParts p).WellKeyed := by
  cases v with
  | number | boolean | text => exact hv
  | sequence items =>
    refine (wellKeyed_sequence _).2 fun w hw => ?_
    exact (wellKeyed_sequence items).1 hv w (List.mem_of_mem_filter hw)
  | mapping es =>
    obtain ⟨hd, hes⟩ := (wellKeyed_mapping es).1 hv
    refine (wellKeyed_mapping _).2 ⟨hd.sublist List.filter_sublist, fun e he => ?_⟩
    exact hes e (List.mem_of_mem_filter he)

theorem keepParts_keepParts (p q : Value → Bool) (v : Value) :
    (v.keepParts p).keepParts q = v.keepParts fun w => p w && q w := by
  cases v with
  | number | boolean | text => rfl
  | sequence | mapping => simp [keepParts, Bool.and_comm]

/-- Only what the properties say of well-keyed values matters. -/
theorem keepParts_congr (hv : v.WellKeyed) (h : ∀ w : Value, w.WellKeyed → p w = q w) :
    v.keepParts p = v.keepParts q := by
  cases v with
  | number | boolean | text => rfl
  | sequence items =>
    refine congrArg Value.sequence (List.filter_congr fun w hw => ?_)
    exact h w ((wellKeyed_sequence items).1 hv w hw)
  | mapping es =>
    refine congrArg Value.mapping (List.filter_congr fun e he => ?_)
    exact h e.1 (Mapping.wellKeyed_keys hv e he)

/-- Every item of the one list is an item of the other, or equals one. -/
def Covered (xs ys : List Value) : Prop := ∀ x ∈ xs, ∃ y ∈ ys, x = y ∨ (x == y) = true

theorem Covered.any_beq {xs ys : List Value} (h : Covered xs ys) (hxs : ∀ x ∈ xs, x.WellKeyed)
    (hys : ∀ y ∈ ys, y.WellKeyed) (hv : v.WellKeyed) (hany : xs.any (v == ·) = true) :
    ys.any (v == ·) = true := by
  obtain ⟨x, hx, hvx⟩ := List.any_eq_true.1 hany
  obtain ⟨y, hy, hxy⟩ := h x hx
  refine List.any_eq_true.2 ⟨y, hy, ?_⟩
  rcases hxy with rfl | hxy
  · exact hvx
  · exact coherent_wellKeyed.trans hv (hxs x hx) (hys y hy) hvx hxy

end Value

section Difference

variable {σ : Type} [Scope σ] (scope : σ) {c : Value} {a b : List Value}

/-- **Differences.** The parts of a collection that equal an item of the sequence are removed. -/
theorem apply_difference (hc : c.WellKeyed) (hkind : c.kind = .sequence ∨ c.kind = .mapping)
    (ha : (Value.sequence a).WellKeyed) :
    apply "-" [c, .sequence a] scope = .ok (some (c.keepParts fun v => !a.any (v == ·))) := by
  rw [wellKeyed_sequence] at ha
  cases c with
  | number | boolean | text => simp [Value.kind] at hkind
  | sequence items =>
    rw [wellKeyed_sequence] at hc
    have hitems : Operator.removeItems items (.sequence a) =
        items.filter fun v => !a.any (v == ·) := by
      exact List.filter_congr fun v hv => congrArg not (Value.any_beq_comm ha (hc v hv))
    rw [apply_subtraction_sequence, hitems]
    rfl
  | mapping m =>
    have hentries : Operator.removeKeys m (.sequence a) = m.filter fun e => !a.any (e.1 == ·) :=
      Mapping.eraseAll_eq_filter hc ha
    rw [apply_subtraction_mapping, hentries]
    rfl

/-- What is no sequence is removed like the only item of one. -/
theorem apply_difference_singleton (hc : c.WellKeyed)
    (hkind : c.kind = .sequence ∨ c.kind = .mapping) {x : Value} (hx : x.WellKeyed)
    (hsingle : x.kind ≠ .sequence) :
    apply "-" [c, x] scope = apply "-" [c, .sequence [x]] scope := by
  cases c with
  | number | boolean | text => simp [Value.kind] at hkind
  | sequence items =>
    have hitems : Operator.removeItems items x = items.filter (· != x) := by
      cases x with
      | sequence => exact absurd rfl hsingle
      | number | boolean | text | mapping => rfl
    have hxs : (Value.sequence [x]).WellKeyed := (wellKeyed_sequence [x]).2 (by simpa using hx)
    rw [apply_difference scope hc hkind hxs, apply_subtraction_sequence, hitems]
    simp [Value.keepParts, bne]
  | mapping m =>
    have hentries : Operator.removeKeys m x = Mapping.erase m x := by
      cases x with
      | sequence => exact absurd rfl hsingle
      | number | boolean | text | mapping => rfl
    rw [apply_subtraction_mapping, apply_subtraction_mapping, hentries]
    rfl

end Difference

/-- **Removals are filters.** What is left of a collection are the parts that equal no item of the
sequence that is removed, as they were. So to remove two sequences one after the other, in either
order, is to remove both at once; repeated items make no difference, however they are spelled; any
other value is removed as if it were the item of a sequence; and removing from a sum of sequences is
removing from both. -/
theorem removal_filters {σ : Type} [Scope σ] (scope : σ) {c : Value} (hc : c.WellKeyed)
    (hkind : c.kind = .sequence ∨ c.kind = .mapping) {a b : List Value}
    (ha : (Value.sequence a).WellKeyed) (hb : (Value.sequence b).WellKeyed) :
    apply "-" [c, .sequence a] scope = .ok (some (c.keepParts fun v => !a.any (v == ·))) ∧
    (∃ ca ab ba r : Value,
      apply "-" [c, .sequence a] scope = .ok (some ca) ∧
      apply "+" [.sequence a, .sequence b] scope = .ok (some ab) ∧
      apply "+" [.sequence b, .sequence a] scope = .ok (some ba) ∧
      apply "-" [ca, .sequence b] scope = .ok (some r) ∧
      apply "-" [c, ab] scope = .ok (some r) ∧
      apply "-" [c, ba] scope = .ok (some r)) ∧
    (∀ a' : List Value, (Value.sequence a').WellKeyed → Value.Covered a a' → Value.Covered a' a →
      apply "-" [c, .sequence a'] scope = apply "-" [c, .sequence a] scope) ∧
    (∀ x : Value, x.WellKeyed → x.kind ≠ .sequence →
      apply "-" [c, x] scope = apply "-" [c, .sequence [x]] scope) ∧
    (∀ d e : List Value, ∃ de da ea r : Value,
      apply "+" [.sequence d, .sequence e] scope = .ok (some de) ∧
      apply "-" [.sequence d, .sequence a] scope = .ok (some da) ∧
      apply "-" [.sequence e, .sequence a] scope = .ok (some ea) ∧
      apply "-" [de, .sequence a] scope = .ok (some r) ∧
      apply "+" [da, ea] scope = .ok (some r)) := by
  have hca := hc.keepParts fun v => !a.any (v == ·)
  have hcakind := (Value.kind_keepParts (fun v => !a.any (v == ·)) c).symm ▸ hkind
  refine ⟨apply_difference scope hc hkind ha, ⟨_, _, _, _, apply_difference scope hc hkind ha,
    apply_addition_sequences scope a b, apply_addition_sequences scope b a,
    apply_difference scope hca hcakind hb, ?_, ?_⟩, ?_, ?_, ?_⟩
  · rw [apply_difference scope hc hkind (ha.append hb), Value.keepParts_keepParts]
    simp [List.any_append]
  · rw [apply_difference scope hc hkind (hb.append ha), Value.keepParts_keepParts]
    simp [List.any_append, Bool.and_comm]
  · intro a' ha' haa' ha'a
    rw [apply_difference scope hc hkind ha, apply_difference scope hc hkind ha']
    rw [wellKeyed_sequence] at ha ha'
    refine congrArg (fun v => Except.ok (some v)) (Value.keepParts_congr hc fun w hw => ?_)
    exact congrArg not (Bool.eq_iff_iff.2 ⟨ha'a.any_beq ha' ha hw, haa'.any_beq ha ha' hw⟩)
  · exact fun x hx hsingle => apply_difference_singleton scope hc hkind hx hsingle
  · intro d e
    refine ⟨_, _, _, _, apply_addition_sequences scope d e, apply_subtraction_sequence scope d _,
      apply_subtraction_sequence scope e _, apply_subtraction_sequence scope _ _, ?_⟩
    rw [apply_addition_sequences]
    exact congrArg (fun xs => Except.ok (some (Value.sequence xs))) (List.filter_append d e).symm

/-- A key is removed under another spelling of it, and an undefined number is not. -/
theorem removal_filters_permuted :
    let undefined : Value := .number Number.undefined
    let key : Value := .mapping [(.text "x", .number 0.0), (.text "y", .boolean true)]
    let key' : Value := .mapping [(.text "y", .boolean true), (.text "x", .number (-0.0))]
    let c : Value := .mapping [(key, .text "a"), (undefined, .text "b"), (.number 1.0, .text "c")]
    let a : List Value := [undefined, key']
    let b : List Value := [.number 1.0, .text "c"]
    let ca : Value := .mapping [(undefined, .text "b"), (.number 1.0, .text "c")]
    c.WellKeyed ∧ (Value.sequence a).WellKeyed ∧ (Value.sequence b).WellKeyed ∧
      apply "-" [c, .sequence a] Variables.empty = .ok (some ca) ∧
      apply "-" [ca, .sequence b] Variables.empty =
        apply "-" [c, .sequence (b ++ a)] Variables.empty ∧
      apply "-" [c, .sequence [key, undefined, key']] Variables.empty = .ok (some ca) ∧
      apply "-" [c, key'] Variables.empty = apply "-" [c, .sequence [key']] Variables.empty := by
  intro undefined key key' c a b ca
  have hc : c.WellKeyed := by simp [c, key, undefined, Assoc.Distinct]; decide
  have ha : (Value.sequence a).WellKeyed := by simp [a, key', undefined, Assoc.Distinct]; decide
  have hb : (Value.sequence b).WellKeyed := by simp [b]
  have ha' : (Value.sequence [key, undefined, key']).WellKeyed := by
    simp [key, key', undefined, Assoc.Distinct]; decide
  have hkeys : (key == key') = true := by decide
  obtain ⟨hfilter, ⟨ca', ab, ba, r, hca, -, hba, hone, -, hboth⟩, hsame, hsingle, -⟩ :=
    removal_filters Variables.empty hc (.inr rfl) ha hb
  have hvalue : apply "-" [c, .sequence a] Variables.empty = .ok (some ca) := by
    rw [hfilter]
    rfl
  cases hvalue.symm.trans hca
  cases hba
  refine ⟨hc, ha, hb, hvalue, hone.trans hboth.symm, ?_, ?_⟩
  · rw [hsame _ ha' (by simp [Value.Covered, a]) (by simp [Value.Covered, a, hkeys]), hvalue]
  · exact hsingle key' ((wellKeyed_sequence a).1 ha key' (by simp [a])) (by decide)

/-! ## Removing what was added -/

/-- **What was added can be removed.** What is left of a sum of sequences without the items of the
second is what is left of the first, and then the items of the second in which an undefined number
occurs, at any depth. What is left of a merge without the keys of the second mapping is what is left of
the first, and then the entries of the second with such a key. -/
theorem removal_cancels {σ : Type} [Scope σ] (scope : σ) :
    (∀ a b : List Value, (Value.sequence a).WellKeyed → (Value.sequence b).WellKeyed →
      ∃ sum difference : List Value,
        apply "+" [.sequence a, .sequence b] scope = .ok (some (.sequence sum)) ∧
        apply "-" [.sequence a, .sequence b] scope = .ok (some (.sequence difference)) ∧
        apply "-" [.sequence sum, .sequence b] scope =
          .ok (some (.sequence (difference ++ b.filter fun v => ¬ v.Defined))) ∧
        ((∀ v ∈ b, v.Defined) → apply "-" [.sequence sum, .sequence b] scope =
          apply "-" [.sequence a, .sequence b] scope) ∧
        apply "-" [.sequence a, .sequence a] scope =
          .ok (some (.sequence (a.filter fun v => ¬ v.Defined)))) ∧
    (∀ m n : Mapping, (Value.mapping m).WellKeyed → (Value.mapping n).WellKeyed →
      ∃ sum difference : Mapping,
        apply "+" [.mapping m, .mapping n] scope = .ok (some (.mapping sum)) ∧
        apply "-" [.mapping m, .sequence (n.map (·.1))] scope =
          .ok (some (.mapping difference)) ∧
        apply "-" [.mapping sum, .sequence (n.map (·.1))] scope =
          .ok (some (.mapping (difference ++ n.filter fun e => ¬ e.1.Defined)))) := by
  refine ⟨?_, ?_⟩
  · intro a b ha hb
    have hcancel : apply "-" [.sequence (a ++ b), .sequence b] scope =
        .ok (some (.sequence ((a.filter fun v => !b.any (v == ·)) ++
          b.filter fun v => ¬ v.Defined))) := by
      rw [apply_difference scope (ha.append hb) (.inl rfl) hb, Value.keepParts, List.filter_append,
        Value.filter_not_any_beq hb]
    have hdifference := apply_difference scope ha (.inl rfl) hb
    refine ⟨_, _, apply_addition_sequences scope a b, hdifference, hcancel, ?_, ?_⟩
    · intro hdefined
      have hnone : (b.filter fun v => ¬ v.Defined) = [] :=
        List.filter_eq_nil_iff.2 fun v hv => by simp [hdefined v hv]
      rw [hcancel, hdifference, hnone, List.append_nil]
      rfl
    · rw [apply_difference scope ha (.inl rfl) ha, Value.keepParts, Value.filter_not_any_beq ha]
  · intro m n hm hn
    refine ⟨_, _, apply_addition_mappings scope m n, apply_subtraction_mapping scope m _, ?_⟩
    rw [apply_subtraction_mapping]
    exact congrArg (fun m => Except.ok (some (Value.mapping m))) (Mapping.eraseAll_merge hm hn)

/-- An undefined number in a key, two levels down, keeps an item and an entry from being removed. -/
theorem removal_cancels_nested :
    let odd : Value := .sequence [.mapping [(.sequence [.number Number.undefined], .boolean true)]]
    let a : List Value := [.text "x", .number 0.0]
    let b : List Value := [.number (-0.0), odd, odd]
    let m : Mapping := [(.text "k", .number 1.0), (.text "l", .number 2.0)]
    let n : Mapping := [(.text "k", .number 3.0), (odd, .number 4.0)]
    (Value.sequence a).WellKeyed ∧ (Value.sequence b).WellKeyed ∧
      (Value.mapping m).WellKeyed ∧ (Value.mapping n).WellKeyed ∧
      apply "-" [.sequence (a ++ b), .sequence b] Variables.empty =
        .ok (some (.sequence [.text "x", odd, odd])) ∧
      apply "-" [.sequence b, .sequence b] Variables.empty = .ok (some (.sequence [odd, odd])) ∧
      apply "-" [.sequence (b ++ a), .sequence a] Variables.empty =
        apply "-" [.sequence b, .sequence a] Variables.empty ∧
      ∃ sum : Mapping, apply "+" [.mapping m, .mapping n] Variables.empty =
          .ok (some (.mapping sum)) ∧
        apply "-" [.mapping sum, .sequence [.text "k", odd]] Variables.empty =
          .ok (some (.mapping [(.text "l", .number 2.0), (odd, .number 4.0)])) := by
  intro odd a b m n
  have ha : (Value.sequence a).WellKeyed := by simp [a]
  have hb : (Value.sequence b).WellKeyed := by simp [b, odd, Assoc.Distinct]
  have hm : (Value.mapping m).WellKeyed := by simp [m, Assoc.Distinct]; decide
  have hn : (Value.mapping n).WellKeyed := by simp [n, odd, Assoc.Distinct]; decide
  obtain ⟨hsequences, hmappings⟩ := removal_cancels Variables.empty
  obtain ⟨sum, difference, hsum, hdifference, hcancel, -, -⟩ := hsequences a b ha hb
  obtain ⟨sum', -, hsum', -, -, hdefined, -⟩ := hsequences b a hb ha
  obtain ⟨-, -, -, -, -, -, hself⟩ := hsequences b b hb hb
  obtain ⟨merged, kept, hmerged, hkept, hremoved⟩ := hmappings m n hm hn
  cases hsum
  cases hsum'
  cases hdifference
  cases hkept
  refine ⟨ha, hb, hm, hn, hcancel, hself, ?_, merged, hmerged, hremoved⟩
  exact hdefined (by simp [a]; decide)

end Formula
