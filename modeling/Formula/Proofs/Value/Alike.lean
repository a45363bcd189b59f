import Formula.Proofs.Except
import Formula.Proofs.Value.Equality
/-!
# Values that are alike

Two values are alike when they are equal and both well-keyed. Among values that are alike to something
this is an equivalence, and `==` cannot tell them apart. Sequences are alike item by item.

Results:
* `Alike.symm`, `Alike.trans`, `Alike.beq_congr`: laws.
* `alike_sequence`, `any_beq_congr`: sequences, and membership in them.
* `any_beq_eq_defined`: which items of a list count as members of it.
-/
namespace Formula.Value

/-- Equal values whose mappings have distinct keys. -/
structure Alike (a b : Value) : Prop where
  left : a.WellKeyed
  right : b.WellKeyed
  equal : (a == b) = true

variable {a a' b b' : Value}

theorem Alike.symm (h : Alike a b) : Alike b a :=
  ⟨h.right, h.left, coherent_wellKeyed.symm h.left h.right h.equal⟩

theorem Alike.trans (h : Alike a b) (h' : Alike b b') : Alike a b' :=
  ⟨h.left, h'.right, coherent_wellKeyed.trans h.left h.right h'.right h.equal h'.equal⟩

theorem Alike.defined (h : Alike a b) : a.Defined := (defined_of_beq h.left h.right h.equal).1

theorem alike_self (ha : a.WellKeyed) (hd : a.Defined) : Alike a a :=
  ⟨ha, ha, (beq_self_iff_defined ha).2 hd⟩

/-- Values that are alike equal the same values. -/
theorem Alike.beq_congr (ha : Alike a a') (hb : Alike b b') : (a == b) = (a' == b') := by
  have hP := coherent_wellKeyed
  calc (a == b)
    _ = (a == b') := hP.beq_congr hb.left hb.right ha.left hb.equal
    _ = (b' == a) := hP.comm ha.left hb.right
    _ = (b' == a') := hP.beq_congr ha.left ha.right hb.right ha.equal
    _ = (a' == b') := hP.comm hb.right ha.right

theorem Alike.kind_eq (h : Alike a b) : a.kind = b.kind := by
  have hab := h.equal
  cases a with
  | number x => obtain ⟨y, rfl, -⟩ := eq_number_of_beq hab; rfl
  | boolean c => rw [eq_boolean_of_beq hab]
  | text s => rw [eq_text_of_beq hab]
  | sequence xs => obtain ⟨ys, rfl⟩ := eq_sequence_of_beq hab; rfl
  | mapping es => obtain ⟨fs, rfl⟩ := eq_mapping_of_beq hab; rfl

theorem Alike.exists_sequence {xs : List Value} (h : Alike (.sequence xs) b) :
    ∃ ys, b = .sequence ys :=
  eq_sequence_of_beq h.equal

theorem Alike.exists_mapping {m : Mapping} (h : Alike (.mapping m) b) : ∃ n, b = .mapping n :=
  eq_mapping_of_beq h.equal

/-! ## Sequences -/

theorem alike_sequence {xs ys : List Value} :
    Alike (.sequence xs) (.sequence ys) ↔ List.Forall₂ Alike xs ys := by
  refine ⟨?_, ?_⟩
  · intro h
    induction xs generalizing ys with
    | nil =>
      cases ys with
      | nil => exact .nil
      | cons y ys => exact (Bool.false_ne_true h.equal).elim
    | cons x xs ih =>
      cases ys with
      | nil => exact (Bool.false_ne_true h.equal).elim
      | cons y ys =>
        obtain ⟨hxs, hys, heq⟩ := h
        rw [wellKeyed_sequence, List.forall_mem_cons] at hxs hys
        rw [beq_sequence_cons, Bool.and_eq_true] at heq
        refine .cons ⟨hxs.1, hys.1, heq.1⟩ (ih ⟨?_, ?_, heq.2⟩)
        · exact (wellKeyed_sequence xs).2 hxs.2
        · exact (wellKeyed_sequence ys).2 hys.2
  · intro h
    induction h with
    | nil => exact ⟨by simp, by simp, beq_sequence_nil⟩
    | @cons x y xs ys hxy _ ih =>
      refine ⟨?_, ?_, ?_⟩
      · rw [wellKeyed_sequence, List.forall_mem_cons]
        exact ⟨hxy.left, (wellKeyed_sequence xs).1 ih.left⟩
      · rw [wellKeyed_sequence, List.forall_mem_cons]
        exact ⟨hxy.right, (wellKeyed_sequence ys).1 ih.right⟩
      · rw [beq_sequence_cons, hxy.equal, ih.equal]
        rfl

theorem any_beq_congr {xs ys : List Value} (h : List.Forall₂ Alike xs ys) (hab : Alike a b) :
    (xs.any (· == a)) = ys.any (· == b) := by
  induction h with
  | nil => rfl
  | cons hxy _ ih => rw [List.any_cons, List.any_cons, hxy.beq_congr hab, ih]

theorem any_beq_comm {xs : List Value} (hxs : ∀ x ∈ xs, x.WellKeyed) (ha : a.WellKeyed) :
    (xs.any (· == a)) = xs.any (a == ·) := by
  refine Bool.eq_iff_iff.2 ?_
  rw [List.any_eq_true, List.any_eq_true]
  refine exists_congr fun x => and_congr_right fun hx => ?_
  rw [coherent_wellKeyed.comm (hxs x hx) ha]

/-- The items of a list that equal an item of it are those without undefined numbers. -/
theorem any_beq_eq_defined {xs : List Value} (hxs : ∀ x ∈ xs, x.WellKeyed) (ha : a ∈ xs) :
    xs.any (a == ·) = decide a.Defined := by
  refine Bool.eq_iff_iff.2 ?_
  rw [List.any_eq_true, decide_eq_true_iff]
  refine ⟨?_, ?_⟩
  · intro h
    obtain ⟨x, hx, hax⟩ := h
    exact (defined_of_beq (hxs a ha) (hxs x hx) hax).1
  · intro h
    exact ⟨a, ha, (beq_self_iff_defined (hxs a ha)).2 h⟩

end Formula.Value
