import Formula.Proofs.Mapping.WellKeyed
/-!
# Values built by the operations on mappings

`Built` are the values whose mappings, at every depth and in keys too, come from the empty mapping by
writing and removing. They are exactly the well-keyed ones, so among them `==` is a partial
equivalence, and what keeps it from being an equivalence is undefined numbers.

Results:
* `built_iff_wellKeyed`: built is well-keyed.
* `beq_partial_equivalence`: equality of built values.
-/
namespace Formula.Value

/-- Values whose mappings were built from the empty one. -/
inductive Built : Value → Prop where
  | number (x : Float) : Built (.number x)
  | boolean (b : Bool) : Built (.boolean b)
  | text (s : String) : Built (.text s)
  | sequence {items : List Value} (h : ∀ v ∈ items, Built v) : Built (.sequence items)
  | empty : Built (.mapping [])
  | insert {m : Mapping} {k v : Value} (hm : Built (.mapping m)) (hk : Built k) (hv : Built v) :
    Built (.mapping (Mapping.insert m k v))
  | erase {m : Mapping} (hm : Built (.mapping m)) (k : Value) : Built (.mapping (Mapping.erase m k))

theorem Built.merge {m n : Mapping} (hm : Built (.mapping m))
    (hn : ∀ e ∈ n, Built e.1 ∧ Built e.2) : Built (.mapping (Mapping.merge m n)) := by
  unfold Mapping.merge
  induction n generalizing m with
  | nil => exact hm
  | cons e n ih =>
    rw [List.forall_mem_cons] at hn
    exact ih (hm.insert hn.1.1 hn.1.2) hn.2

theorem Built.wellKeyed {v : Value} (h : Built v) : v.WellKeyed := by
  induction h with
  | number x => exact wellKeyed_number x
  | boolean b => exact wellKeyed_boolean b
  | text s => exact wellKeyed_text s
  | sequence _ ih => exact (wellKeyed_sequence _).2 ih
  | empty => exact Mapping.wellKeyed_nil
  | insert _ _ _ hm hk hv => exact Mapping.wellKeyed_insert hm hk hv
  | erase _ k hm => exact Mapping.wellKeyed_erase hm k

theorem built_iff_wellKeyed (v : Value) : v.Built ↔ v.WellKeyed := by
  refine ⟨Built.wellKeyed, ?_⟩
  induction v using Value.induction with
  | number x => exact fun _ => .number x
  | boolean b => exact fun _ => .boolean b
  | text s => exact fun _ => .text s
  | sequence items ih =>
    intro h
    rw [wellKeyed_sequence] at h
    exact .sequence fun v hv => ih v hv (h v hv)
  | mapping es ih =>
    intro h
    rw [wellKeyed_mapping] at h
    have hes : ∀ e ∈ es, Built e.1 ∧ Built e.2 := fun e he =>
      ⟨(ih e he).1 (h.2 e he).1, (ih e he).2 (h.2 e he).2⟩
    have := Built.empty.merge hes
    rwa [show Mapping.merge [] es = es from Mapping.ofList_eq_self h.1] at this

/-- **Equality of built values.** It is symmetric and transitive, a value equals itself exactly when no
undefined number occurs in it, and so none occurs in equal values. -/
theorem beq_partial_equivalence {a b c : Value} (ha : a.Built) (hb : b.Built) (hc : c.Built) :
    ((a == b) = true → (b == a) = true) ∧
    ((a == b) = true → (b == c) = true → (a == c) = true) ∧
    ((a == a) = true ↔ ∀ x, Within (.number x) a → Number.isUndefined x = false) ∧
    ((a == b) = true → ∀ x, Within (.number x) a ∨ Within (.number x) b →
      Number.isUndefined x = false) := by
  have ha := ha.wellKeyed
  have hb := hb.wellKeyed
  have hc := hc.wellKeyed
  refine ⟨coherent_wellKeyed.symm ha hb, coherent_wellKeyed.trans ha hb hc,
    beq_self_iff_defined ha, ?_⟩
  intro h x hx
  obtain ⟨hda, hdb⟩ := defined_of_beq ha hb h
  exact hx.elim (hda x) (hdb x)

/-- Two mappings that list their entries in different orders, with a zero of either sign as a key and
a mapping as another. -/
theorem beq_partial_equivalence_permuted :
    let a : Value := .mapping [(.number 0.0, .text "zero"),
      (.mapping [(.text "k", .number 2.0), (.boolean true, .sequence [])], .boolean false)]
    let b : Value := .mapping [
      (.mapping [(.boolean true, .sequence []), (.text "k", .number 2.0)], .boolean false),
      (.number (-0.0), .text "zero")]
    a.Built ∧ b.Built ∧ (a == b) = true ∧ (b == a) = true ∧ (a == a) = true := by
  intro a b
  have ha : a.Built := (built_iff_wellKeyed a).2 (by simp [a, Assoc.Distinct]; decide)
  have hb : b.Built := (built_iff_wellKeyed b).2 (by simp [b, Assoc.Distinct]; decide)
  have hab : (a == b) = true := by decide
  obtain ⟨hsymm, htrans, -, -⟩ := beq_partial_equivalence ha hb ha
  exact ⟨ha, hb, hab, hsymm hab, htrans hab (hsymm hab)⟩

end Formula.Value
