import Formula.Proofs.Value.Equality
import Formula.Value.Mapping
/-!
# Operations on mappings keep keys distinct

Each operation keeps a well-keyed mapping well-keyed, and what it answers was in the mapping before.
Only `put` needs the equality of values to be symmetric: it compares the stored keys with the new one,
and the keys are distinct in both directions.

Results:
* `wellKeyed_insert`, `wellKeyed_erase`, `wellKeyed_merge`, `wellKeyed_ofList`, `wellKeyed_eraseAll`.
* `wellKeyed_of_get?`: values found are well-keyed.
* `ofList_eq_self`: distinct entries written one after the other are the list again.
-/
namespace Formula.Mapping

open Assoc (Distinct)
open Value (coherent_wellKeyed wellKeyed_mapping)

variable {m n : Mapping} {k v : Value}

theorem wellKeyed_nil : (Value.mapping []).WellKeyed := by
  rw [wellKeyed_mapping]
  exact ⟨Assoc.distinct_nil, by simp⟩

theorem wellKeyed_keys (hm : (Value.mapping m).WellKeyed) : ∀ e ∈ m, e.1.WellKeyed := by
  intro e he
  exact (((wellKeyed_mapping m).1 hm).2 e he).1

theorem wellKeyed_insert (hm : (Value.mapping m).WellKeyed) (hk : k.WellKeyed)
    (hv : v.WellKeyed) : (Value.mapping (insert m k v)).WellKeyed := by
  rw [wellKeyed_mapping] at hm ⊢
  refine ⟨Assoc.distinct_put coherent_wellKeyed hm.1 (fun e he => (hm.2 e he).1) hk v, ?_⟩
  intro e he
  rcases Assoc.mem_put he with he | ⟨hev, hek | ⟨f, hf, hfe⟩⟩
  · exact hm.2 e he
  · rw [hek, hev]; exact ⟨hk, hv⟩
  · rw [← hfe, hev]; exact ⟨(hm.2 f hf).1, hv⟩

theorem wellKeyed_erase (hm : (Value.mapping m).WellKeyed) (k : Value) :
    (Value.mapping (erase m k)).WellKeyed := by
  rw [wellKeyed_mapping] at hm ⊢
  exact ⟨Assoc.distinct_take hm.1 k, fun e he => hm.2 e ((Assoc.take_sublist m k).subset he)⟩

theorem within_of_get? (h : get? m k = some v) : Value.Within v (.mapping m) := by
  obtain ⟨e, he, -, rfl⟩ := Assoc.mem_of_get? h
  exact .entry he (.self _)

theorem wellKeyed_of_get? (hm : (Value.mapping m).WellKeyed) (h : get? m k = some v) :
    v.WellKeyed :=
  hm.within (within_of_get? h)

theorem wellKeyed_merge (hm : (Value.mapping m).WellKeyed)
    (hn : ∀ e ∈ n, e.1.WellKeyed ∧ e.2.WellKeyed) : (Value.mapping (merge m n)).WellKeyed := by
  unfold merge
  induction n generalizing m with
  | nil => exact hm
  | cons e n ih =>
    rw [List.forall_mem_cons] at hn
    exact ih (wellKeyed_insert hm hn.1.1 hn.1.2) hn.2

theorem wellKeyed_ofList (hn : ∀ e ∈ n, e.1.WellKeyed ∧ e.2.WellKeyed) :
    (Value.mapping (ofList n)).WellKeyed :=
  wellKeyed_merge wellKeyed_nil hn

theorem wellKeyed_eraseAll (hm : (Value.mapping m).WellKeyed) (keys : List Value) :
    (Value.mapping (eraseAll m keys)).WellKeyed := by
  unfold eraseAll
  induction keys generalizing m with
  | nil => exact hm
  | cons k keys ih => exact ih (wellKeyed_erase hm k)

/-! ## Writing distinct entries -/

theorem insert_eq_append (h : ∀ e ∈ m, (e.1 == k) = false) : insert m k v = m ++ [(k, v)] := by
  show (Assoc.put m k v).2 = _
  rw [Assoc.put_of_none ((Assoc.get?_eq_none_iff m k).2 h)]

theorem merge_eq_append (h : Distinct (m ++ n)) : merge m n = m ++ n := by
  unfold merge
  induction n generalizing m with
  | nil => exact (List.append_nil m).symm
  | cons e n ih =>
    have he : ∀ f ∈ m, (f.1 == e.1) = false := by
      intro f hf
      exact ((List.pairwise_append.1 h).2.2 f hf e (by simp)).1
    rw [List.append_cons m e n] at h ⊢
    rw [List.foldl_cons, insert_eq_append he]
    exact ih h

theorem ofList_eq_self (h : Distinct n) : ofList n = n :=
  merge_eq_append h

end Formula.Mapping
