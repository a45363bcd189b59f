import Formula.Proofs.Value.Built
/-!
# Mappings are insertion-ordered finite maps

A mapping built from the empty one answers lookups like a finite map whose keys are taken up to `==`,
and keeps its entries in the order in which their keys first came. An equal key that is not the same
key (a zero of the other sign, a mapping with its entries permuted) addresses the same entry. A key
with an undefined number in it equals no key, itself included, so it is never found.

Results:
* `put_written`, `take_taken`: what one operation does to a well-keyed mapping.
* `get?_of_not_defined`: keys with undefined numbers are not found.
* `refines_ordered_map`: the operations on a built mapping.
-/
namespace Formula.Mapping

open Assoc (Distinct)
open Value (coherent_wellKeyed wellKeyed_mapping)

/-- Writing `v` under `k` made `m'` of `m` and answered `answer`. -/
structure Written (m : Mapping) (k v : Value) (answer : Option Value) (m' : Mapping) : Prop where
  answer_eq : answer = get? m k
  lookup : ∀ k' : Value, k'.Built → get? m' k' = if k' == k then some v else get? m k'
  /-- an equal key keeps its place and its own spelling -/
  replaced : ∀ old, answer = some old → ∃ pre key post,
    m = pre ++ (key, old) :: post ∧ (key == k) = true ∧ m' = pre ++ (key, v) :: post
  appended : answer = none → m' = m ++ [(k, v)]
  length : m'.length = m.length + if answer.isSome then 0 else 1

/-- Removing `k` made `m'` of `m` and answered `answer`. -/
structure Taken (m : Mapping) (k : Value) (answer : Option Value) (m' : Mapping) : Prop where
  answer_eq : answer = get? m k
  lookup : ∀ k' : Value, k'.Built → get? m' k' = if k' == k then none else get? m k'
  /-- the entries that remain keep their order -/
  removed : ∀ old, answer = some old → ∃ pre key post,
    m = pre ++ (key, old) :: post ∧ (key == k) = true ∧ m' = pre ++ post
  unchanged : answer = none → m' = m
  length : m.length = m'.length + if answer.isSome then 1 else 0

variable {m : Mapping} {k v : Value}

theorem put_written (hm : (Value.mapping m).WellKeyed) (hk : k.WellKeyed) (v : Value) :
    Written m k v (put m k v).1 (put m k v).2 := by
  have hlookup : ∀ k' : Value, k'.Built →
      get? (put m k v).2 k' = if k' == k then some v else get? m k' := by
    intro k' hk'
    exact Assoc.get?_put coherent_wellKeyed (wellKeyed_keys hm) hk hk'.wellKeyed v
  cases hg : get? m k with
  | none =>
    have hput : put m k v = (none, m ++ [(k, v)]) := Assoc.put_of_none hg v
    rw [hput] at hlookup ⊢
    refine ⟨hg.symm, hlookup, nofun, fun _ => rfl, ?_⟩
    rw [List.length_append]
    rfl
  | some old =>
    obtain ⟨pre, key, post, hsplit, hkey, -, hput⟩ := Assoc.put_of_some hg v
    have hput : put m k v = (some old, pre ++ (key, v) :: post) := hput
    rw [hput] at hlookup ⊢
    refine ⟨hg.symm, hlookup, ?_, nofun, ?_⟩
    · intro old' h
      cases h
      exact ⟨pre, key, post, hsplit, hkey, rfl⟩
    · rw [hsplit, List.length_append, List.length_append]
      rfl

theorem take_taken (hm : (Value.mapping m).WellKeyed) (hk : k.WellKeyed) :
    Taken m k (take m k).1 (take m k).2 := by
  have hlookup : ∀ k' : Value, k'.Built →
      get? (take m k).2 k' = if k' == k then none else get? m k' := by
    intro k' hk'
    exact Assoc.get?_take coherent_wellKeyed ((wellKeyed_mapping m).1 hm).1 (wellKeyed_keys hm) hk
      hk'.wellKeyed
  cases hg : get? m k with
  | none =>
    have htake : take m k = (none, m) := Assoc.take_of_none hg
    rw [htake] at hlookup ⊢
    exact ⟨hg.symm, hlookup, nofun, fun _ => rfl, rfl⟩
  | some old =>
    obtain ⟨pre, key, post, hsplit, hkey, -, htake⟩ := Assoc.take_of_some hg
    have htake : take m k = (some old, pre ++ post) := htake
    rw [htake] at hlookup ⊢
    refine ⟨hg.symm, hlookup, ?_, nofun, ?_⟩
    · intro old' h
      cases h
      exact ⟨pre, key, post, hsplit, hkey, rfl⟩
    · rw [hsplit, List.length_append, List.length_append]
      rfl

/-- No stored key equals a key in which an undefined number occurs. -/
theorem get?_of_not_defined (hm : (Value.mapping m).WellKeyed) (hk : k.WellKeyed)
    (h : ¬ k.Defined) : get? m k = none := by
  refine (Assoc.get?_eq_none_iff m k).2 ?_
  intro e he
  by_contra hne
  have heq : (e.1 == k) = true := by simpa using hne
  exact h (Value.defined_of_beq (wellKeyed_keys hm e he) hk heq).2

/-- **Mappings refine insertion-ordered finite maps.** Of a built mapping, `put` and `take` answer
what was under the key, change what is under equal keys and nothing else, and keep the order. A key
with an undefined number in it is not found, and writing it appends. -/
theorem refines_ordered_map (hm : (Value.mapping m).Built) (hk : k.Built) (v : Value) :
    Written m k v (put m k v).1 (put m k v).2 ∧
    Taken m k (take m k).1 (take m k).2 ∧
    ((∃ x, Value.Within (.number x) k ∧ Number.isUndefined x = true) →
      get? m k = none ∧ take m k = (none, m) ∧ put m k v = (none, m ++ [(k, v)])) := by
  have hm := hm.wellKeyed
  have hk := hk.wellKeyed
  refine ⟨put_written hm hk v, take_taken hm hk, ?_⟩
  intro ⟨x, hx, hu⟩
  have hundef : ¬ k.Defined := by
    intro hd
    rw [hd x hx] at hu
    cases hu
  have hg := get?_of_not_defined hm hk hundef
  exact ⟨hg, Assoc.take_of_none hg, Assoc.put_of_none hg v⟩

/-- A permuted mapping as key finds the entry written under the other order and leaves its spelling,
and an undefined number as key adds an entry. -/
theorem refines_ordered_map_permuted :
    let k : Value := .mapping [(.number 0.0, .text "a"), (.boolean true, .text "b")]
    let k' : Value := .mapping [(.boolean true, .text "b"), (.number (-0.0), .text "a")]
    let m : Mapping := [(.number Number.undefined, .text "c"), (k, .text "d")]
    (Value.mapping m).Built ∧ k'.Built ∧ (put m k' (.text "e")).1 = some (.text "d") ∧
      put m (.number Number.undefined) (.text "f") =
        (none, m ++ [(.number Number.undefined, .text "f")]) := by
  intro k k' m
  have hm : (Value.mapping m).Built :=
    (Value.built_iff_wellKeyed _).2 (by simp [m, k, Distinct]; decide)
  have hk' : k'.Built := (Value.built_iff_wellKeyed k').2 (by simp [k', Distinct]; decide)
  have hkey : (k == k') = true := by decide
  have hg : get? m k' = some (.text "d") := by simp [get?, Assoc.get?, m, hkey]; decide
  obtain ⟨hwritten, -, -⟩ := refines_ordered_map hm hk' (.text "e")
  obtain ⟨-, -, hundefined⟩ :=
    refines_ordered_map hm (.number Number.undefined) (.text "f")
  have hu : Number.isUndefined Number.undefined = true := by decide
  exact ⟨hm, hk', hwritten.answer_eq.trans hg, (hundefined ⟨_, .self _, hu⟩).2.2⟩

end Formula.Mapping
