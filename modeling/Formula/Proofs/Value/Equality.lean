import Formula.Proofs.Number.Equality
import Formula.Proofs.Value.Within
/-!
# Equality of values is a partial equivalence

The equality of mappings looks the keys of the left one up in the right one and compares lengths, so
neither symmetry nor transitivity is visible in it. Both hold among well-keyed values. For two
mappings they rest on each other, one level down: keys of the left one that equal one key of the right
one equal each other, so no two of them share an entry, and as the lengths agree no entry of the right
one is left over.

Results:
* `coherent_wellKeyed`: `==` is symmetric and transitive among well-keyed values.
* `beq_self_iff_defined`: a well-keyed value equals itself when its numbers are defined.
* `beq_mapping_iff`: equal mappings have as many entries, and an entry of the second for each entry of
  the first.
-/
namespace Formula.Value

open Assoc (Coherent Distinct)

/-! ## Values of one kind -/

section Kinds

variable {b : Value}

theorem eq_number_of_beq {x : Float} (h : (number x == b) = true) :
    ∃ y, b = number y ∧ (x == y) = true := by
  cases b <;> first | exact ⟨_, rfl, h⟩ | exact (Bool.false_ne_true h).elim

theorem eq_boolean_of_beq {c : Bool} (h : (boolean c == b) = true) : b = boolean c := by
  cases b with
  | boolean d =>
    have hcd : (c == d) = true := h
    rw [beq_iff_eq.1 hcd]
  | _ => exact (Bool.false_ne_true h).elim

theorem eq_text_of_beq {s : String} (h : (text s == b) = true) : b = text s := by
  cases b with
  | text t =>
    have hst : (s == t) = true := h
    rw [beq_iff_eq.1 hst]
  | _ => exact (Bool.false_ne_true h).elim

theorem eq_sequence_of_beq {xs : List Value} (h : (sequence xs == b) = true) :
    ∃ ys, b = sequence ys := by
  cases b <;> first | exact ⟨_, rfl⟩ | exact (Bool.false_ne_true h).elim

theorem eq_mapping_of_beq {es : List (Value × Value)} (h : (mapping es == b) = true) :
    ∃ fs, b = mapping fs := by
  cases b <;> first | exact ⟨_, rfl⟩ | exact (Bool.false_ne_true h).elim

end Kinds

/-! ## Sequences -/

section Sequences

variable {P : Value → Prop}

theorem sequence_symm (hP : Coherent P) : ∀ {xs ys : List Value}, (∀ x ∈ xs, P x) →
    (∀ y ∈ ys, P y) → (sequence xs == sequence ys) = true → (sequence ys == sequence xs) = true
  | [], [], _, _, h => h
  | [], _ :: _, _, _, h => (Bool.false_ne_true h).elim
  | _ :: _, [], _, _, h => (Bool.false_ne_true h).elim
  | x :: xs, y :: ys, hxs, hys, h => by
    rw [List.forall_mem_cons] at hxs hys
    rw [beq_sequence_cons, Bool.and_eq_true] at h ⊢
    exact ⟨hP.symm hxs.1 hys.1 h.1, sequence_symm hP hxs.2 hys.2 h.2⟩

theorem sequence_trans (hP : Coherent P) : ∀ {xs ys zs : List Value}, (∀ x ∈ xs, P x) →
    (∀ y ∈ ys, P y) → (∀ z ∈ zs, P z) → (sequence xs == sequence ys) = true →
    (sequence ys == sequence zs) = true → (sequence xs == sequence zs) = true
  | [], [], _, _, _, _, _, h => h
  | [], _ :: _, _, _, _, _, h, _ => (Bool.false_ne_true h).elim
  | _ :: _, [], _, _, _, _, h, _ => (Bool.false_ne_true h).elim
  | _ :: _, _ :: _, [], _, _, _, _, h => (Bool.false_ne_true h).elim
  | x :: xs, y :: ys, z :: zs, hxs, hys, hzs, h, h' => by
    rw [List.forall_mem_cons] at hxs hys hzs
    rw [beq_sequence_cons, Bool.and_eq_true] at h h' ⊢
    exact ⟨hP.trans hxs.1 hys.1 hzs.1 h.1 h'.1, sequence_trans hP hxs.2 hys.2 hzs.2 h.2 h'.2⟩

theorem sequence_self (xs : List Value) :
    (sequence xs == sequence xs) = true ↔ ∀ x ∈ xs, (x == x) = true := by
  induction xs with
  | nil => simp [beq_sequence_nil]
  | cons x xs ih => rw [beq_sequence_cons, Bool.and_eq_true, ih, List.forall_mem_cons]

end Sequences

/-! ## Mappings -/

/-- A relation that is total on `xs` and never relates two members of it to one of `ys` needs at least
as many members of `ys`. -/
theorem length_le_of_total {α β : Type} {R : α → β → Prop} {xs : List α} {ys : List β}
    (htotal : ∀ x ∈ xs, ∃ y ∈ ys, R x y)
    (hinj : xs.Pairwise fun x x' => ∀ y ∈ ys, R x y → ¬ R x' y) : xs.length ≤ ys.length := by
  induction xs generalizing ys with
  | nil => exact Nat.zero_le _
  | cons x xs ih =>
    obtain ⟨y₀, hy₀, hR⟩ := htotal x (by simp)
    obtain ⟨hx, hxs⟩ := List.pairwise_cons.1 hinj
    obtain ⟨pre, post, rfl⟩ := List.append_of_mem hy₀
    have hsub : ∀ y ∈ pre ++ post, y ∈ pre ++ y₀ :: post := by
      intro y hy
      simp only [List.mem_append, List.mem_cons] at hy ⊢
      exact hy.imp_right .inr
    -- The members of `xs` are related to what is left without `y₀`.
    have hrest : xs.length ≤ (pre ++ post).length := by
      refine ih ?_ (hxs.imp fun h y hy => h y (hsub y hy))
      intro x' hx'
      obtain ⟨y, hy, hR'⟩ := htotal x' (by simp [hx'])
      have hne : y ≠ y₀ := by
        intro he; subst he
        exact hx x' hx' y hy₀ hR hR'
      exact ⟨y, by simpa [hne] using hy, hR'⟩
    simp only [List.length_append, List.length_cons] at hrest ⊢
    omega

/-- When `ys` is no longer than `xs`, such a relation reaches all of it. -/
theorem exists_left_of_length_le {α β : Type} {R : α → β → Prop} {xs : List α} {ys : List β}
    (hlen : ys.length ≤ xs.length) (htotal : ∀ x ∈ xs, ∃ y ∈ ys, R x y)
    (hinj : xs.Pairwise fun x x' => ∀ y ∈ ys, R x y → ¬ R x' y) : ∀ y ∈ ys, ∃ x ∈ xs, R x y := by
  intro y₀ hy₀
  by_contra hnone
  obtain ⟨pre, post, rfl⟩ := List.append_of_mem hy₀
  have hsub : ∀ y ∈ pre ++ post, y ∈ pre ++ y₀ :: post := by
    intro y hy
    simp only [List.mem_append, List.mem_cons] at hy ⊢
    exact hy.imp_right .inr
  have hle : xs.length ≤ (pre ++ post).length := by
    refine length_le_of_total ?_ (hinj.imp fun h y hy => h y (hsub y hy))
    intro x hx
    obtain ⟨y, hy, hR⟩ := htotal x hx
    have hne : y ≠ y₀ := by
      intro he; subst he
      exact hnone ⟨x, hx, hR⟩
    exact ⟨y, by simpa [hne] using hy, hR⟩
  simp only [List.length_append, List.length_cons] at hle hlen
  omega

/-- Every entry of `es` has an equal entry in `fs`. -/
def Covers (es fs : Mapping) : Prop :=
  ∀ e ∈ es, ∃ f ∈ fs, (f.1 == e.1) = true ∧ (f.2 == e.2) = true

section Mappings

variable {P : Value → Prop} {es fs gs : Mapping}

theorem beq_mapping_iff (hP : Coherent P) (hes : ∀ e ∈ es, P e.1) (hfs : ∀ f ∈ fs, P f.1)
    (hd : Distinct fs) :
    (mapping es == mapping fs) = true ↔ es.length = fs.length ∧ Covers es fs := by
  rw [beq_mapping, Bool.and_eq_true, beq_iff_eq, List.all_eq_true]
  unfold Covers
  refine and_congr_right fun _ => forall₂_congr fun e he => ?_
  rw [Option.any_eq_true]
  simp only [Assoc.get?_eq_some_iff hP hd hfs (hes e he)]
  constructor
  · intro h
    obtain ⟨v, ⟨f, hf, hk, rfl⟩, hv⟩ := h
    exact ⟨f, hf, hk, hv⟩
  · intro h
    obtain ⟨f, hf, hk, hv⟩ := h
    exact ⟨f.2, ⟨f, hf, hk, rfl⟩, hv⟩

/-- Entries with distinct keys have no equal entry in common. -/
theorem pairwise_not_common (hP : Coherent P) (hes : ∀ e ∈ es, P e.1) (hfs : ∀ f ∈ fs, P f.1)
    (hd : Distinct es) : es.Pairwise fun e e' => ∀ f ∈ fs,
      ((f.1 == e.1) = true ∧ (f.2 == e.2) = true) →
        ¬ ((f.1 == e'.1) = true ∧ (f.2 == e'.2) = true) := by
  refine List.Pairwise.imp_of_mem (fun {e e'} he he' hne f hf hfe hfe' => ?_) hd
  have hee' : (e.1 == e'.1) = true :=
    hP.trans (hes e he) (hfs f hf) (hes e' he') (hP.symm (hfs f hf) (hes e he) hfe.1) hfe'.1
  rw [hne.1] at hee'; cases hee'

theorem Covers.length_le (hP : Coherent P) (hes : ∀ e ∈ es, P e.1) (hfs : ∀ f ∈ fs, P f.1)
    (hd : Distinct es) (h : Covers es fs) : es.length ≤ fs.length :=
  length_le_of_total h (pairwise_not_common hP hes hfs hd)

theorem Covers.symm (hP : Coherent P) (hes : ∀ e ∈ es, P e.1 ∧ P e.2)
    (hfs : ∀ f ∈ fs, P f.1 ∧ P f.2) (hd : Distinct es) (hlen : es.length = fs.length)
    (h : Covers es fs) : Covers fs es := by
  have hinj := pairwise_not_common hP (fun e he => (hes e he).1) (fun f hf => (hfs f hf).1) hd
  intro f hf
  obtain ⟨e, he, hk, hv⟩ := exists_left_of_length_le hlen.ge h hinj f hf
  exact ⟨e, he, hP.symm (hfs f hf).1 (hes e he).1 hk, hP.symm (hfs f hf).2 (hes e he).2 hv⟩

theorem Covers.trans (hP : Coherent P) (hes : ∀ e ∈ es, P e.1 ∧ P e.2)
    (hfs : ∀ f ∈ fs, P f.1 ∧ P f.2) (hgs : ∀ g ∈ gs, P g.1 ∧ P g.2) (h : Covers es fs)
    (h' : Covers fs gs) : Covers es gs := by
  intro e he
  obtain ⟨f, hf, hk, hv⟩ := h e he
  obtain ⟨g, hg, hk', hv'⟩ := h' f hf
  exact ⟨g, hg, hP.trans (hgs g hg).1 (hfs f hf).1 (hes e he).1 hk' hk,
    hP.trans (hgs g hg).2 (hfs f hf).2 (hes e he).2 hv' hv⟩

end Mappings

/-! ## All values -/

/-- The parts of a well-keyed value are well-keyed and smaller. -/
theorem mapping_parts {n : Nat} {es : Mapping} (hk : (mapping es).WellKeyed)
    (hn : sizeOf (mapping es) < n + 1) : Distinct es ∧
      ∀ e ∈ es, (e.1.WellKeyed ∧ sizeOf e.1 < n) ∧ (e.2.WellKeyed ∧ sizeOf e.2 < n) := by
  obtain ⟨hd, hes⟩ := (wellKeyed_mapping es).1 hk
  refine ⟨hd, fun e he => ⟨⟨(hes e he).1, ?_⟩, ⟨(hes e he).2, ?_⟩⟩⟩
  · have := sizeOf_key_lt he; omega
  · have := sizeOf_entry_lt he; omega

theorem sequence_parts {n : Nat} {xs : List Value} (hk : (sequence xs).WellKeyed)
    (hn : sizeOf (sequence xs) < n + 1) : ∀ x ∈ xs, x.WellKeyed ∧ sizeOf x < n := by
  intro x hx
  have := sizeOf_item_lt hx
  exact ⟨(wellKeyed_sequence xs).1 hk x hx, by omega⟩

/-- Symmetry and transitivity together, level by level: each of them needs both one level down. -/
theorem coherent_of_sizeOf_lt (n : Nat) :
    Coherent fun v : Value => v.WellKeyed ∧ sizeOf v < n := by
  induction n with
  | zero => exact ⟨fun h => absurd h.2 (Nat.not_lt_zero _), fun h => absurd h.2 (Nat.not_lt_zero _)⟩
  | succ n ih =>
    constructor
    · intro a b ha hb h
      cases a with
      | number x =>
        obtain ⟨y, rfl, hxy⟩ := eq_number_of_beq h
        rw [beq_number]
        exact BEq.symm hxy
      | boolean c => obtain rfl := eq_boolean_of_beq h; exact h
      | text s => obtain rfl := eq_text_of_beq h; exact h
      | sequence xs =>
        obtain ⟨ys, rfl⟩ := eq_sequence_of_beq h
        exact sequence_symm ih (sequence_parts ha.1 ha.2) (sequence_parts hb.1 hb.2) h
      | mapping es =>
        obtain ⟨fs, rfl⟩ := eq_mapping_of_beq h
        obtain ⟨hde, hes⟩ := mapping_parts ha.1 ha.2
        obtain ⟨hdf, hfs⟩ := mapping_parts hb.1 hb.2
        have hes₁ := fun e he => (hes e he).1
        have hfs₁ := fun f hf => (hfs f hf).1
        rw [beq_mapping_iff ih hes₁ hfs₁ hdf] at h
        rw [beq_mapping_iff ih hfs₁ hes₁ hde]
        exact ⟨h.1.symm, h.2.symm ih hes hfs hde h.1⟩
    · intro a b c ha hb hc h h'
      cases a with
      | number x =>
        obtain ⟨y, rfl, hxy⟩ := eq_number_of_beq h
        obtain ⟨z, rfl, hyz⟩ := eq_number_of_beq h'
        rw [beq_number]
        exact BEq.trans hxy hyz
      | boolean d => obtain rfl := eq_boolean_of_beq h; exact h'
      | text s => obtain rfl := eq_text_of_beq h; exact h'
      | sequence xs =>
        obtain ⟨ys, rfl⟩ := eq_sequence_of_beq h
        obtain ⟨zs, rfl⟩ := eq_sequence_of_beq h'
        exact sequence_trans ih (sequence_parts ha.1 ha.2) (sequence_parts hb.1 hb.2)
          (sequence_parts hc.1 hc.2) h h'
      | mapping es =>
        obtain ⟨fs, rfl⟩ := eq_mapping_of_beq h
        obtain ⟨gs, rfl⟩ := eq_mapping_of_beq h'
        obtain ⟨-, hes⟩ := mapping_parts ha.1 ha.2
        obtain ⟨hdf, hfs⟩ := mapping_parts hb.1 hb.2
        obtain ⟨hdg, hgs⟩ := mapping_parts hc.1 hc.2
        have hes₁ := fun e he => (hes e he).1
        have hfs₁ := fun f hf => (hfs f hf).1
        have hgs₁ := fun g hg => (hgs g hg).1
        rw [beq_mapping_iff ih hes₁ hfs₁ hdf] at h
        rw [beq_mapping_iff ih hfs₁ hgs₁ hdg] at h'
        rw [beq_mapping_iff ih hes₁ hgs₁ hdg]
        exact ⟨h.1.trans h'.1, h.2.trans ih hes hfs hgs h'.2⟩

/-- Among well-keyed values `==` is symmetric and transitive. -/
theorem coherent_wellKeyed : Coherent WellKeyed where
  symm {a b} ha hb :=
    (coherent_of_sizeOf_lt (sizeOf a + sizeOf b + 1)).symm ⟨ha, by omega⟩ ⟨hb, by omega⟩
  trans {a b c} ha hb hc :=
    (coherent_of_sizeOf_lt (sizeOf a + sizeOf b + sizeOf c + 1)).trans ⟨ha, by omega⟩
      ⟨hb, by omega⟩ ⟨hc, by omega⟩

/-! ## Values that equal themselves -/

theorem mapping_self (es : Mapping) (hk : (mapping es).WellKeyed) :
    (mapping es == mapping es) = true ↔ ∀ e ∈ es, (e.1 == e.1) = true ∧ (e.2 == e.2) = true := by
  obtain ⟨hd, hes⟩ := (wellKeyed_mapping es).1 hk
  have hkeys := fun e he => (hes e he).1
  have hP := coherent_wellKeyed
  rw [beq_mapping_iff hP hkeys hkeys hd]
  constructor
  · intro h e he
    obtain ⟨f, hf, hkf, hvf⟩ := h.2 e he
    have hef : f = e := hd.eq_of_beq hf he hkf
    rw [hef] at hkf hvf
    exact ⟨hkf, hvf⟩
  · intro h
    exact ⟨rfl, fun e he => ⟨e, he, h e he⟩⟩

/-- A well-keyed value equals itself when no undefined number occurs in it. -/
theorem beq_self_iff_defined {v : Value} (hv : v.WellKeyed) : (v == v) = true ↔ v.Defined := by
  induction v using Value.induction with
  | number x => rw [beq_number, Number.beq_self_iff, defined_number]
  | boolean b => exact iff_of_true (beq_self_eq_true b) (defined_boolean b)
  | text s => exact iff_of_true (beq_self_eq_true s) (defined_text s)
  | sequence xs ih =>
    rw [sequence_self, defined_sequence]
    rw [wellKeyed_sequence] at hv
    exact forall₂_congr fun x hx => ih x hx (hv x hx)
  | mapping es ih =>
    rw [mapping_self es hv, defined_mapping]
    rw [wellKeyed_mapping] at hv
    exact forall₂_congr fun e he =>
      and_congr ((ih e he).1 (hv.2 e he).1) ((ih e he).2 (hv.2 e he).2)

/-- Equal values are both free of undefined numbers. -/
theorem defined_of_beq {a b : Value} (ha : a.WellKeyed) (hb : b.WellKeyed) (h : (a == b) = true) :
    a.Defined ∧ b.Defined := by
  have hP := coherent_wellKeyed
  have hba := hP.symm ha hb h
  exact ⟨(beq_self_iff_defined ha).1 (hP.trans ha hb ha h hba),
    (beq_self_iff_defined hb).1 (hP.trans hb ha hb hba h)⟩

end Formula.Value
